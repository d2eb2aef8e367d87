import LazyMatrix.Event
import LazyMatrix.Pattern.Bindings

/-! Matching an expression against a pattern. A wildcard takes whatever stands in its place, and
each later occurrence of it must find the very same node there. Operators must agree kind for
kind, though the constants of scales are not compared, and a literal or a future in a pattern
matches only itself. The walk goes from left to right and ends at the first mismatch. -/

namespace LazyMatrix

/-- How a match ended: what was bound by then, how it failed if it did, and what there is to log. -/
structure Matched where
  bindings : Bindings
  error : Option MatchError
  events : List Event

namespace Matched

def succeed (b : Bindings) (events : List Event) : Matched := ⟨b, none, events⟩

def fail (b : Bindings) (e : MatchError) (events : List Event) : Matched := ⟨b, some e, events⟩

def after (event : Event) (m : Matched) : Matched := { m with events := event :: m.events }

def andThen (m : Matched) (next : Bindings → Matched) : Matched :=
  match m.error with
  | some _ => m
  | none => { next m.bindings with events := m.events ++ (next m.bindings).events }

end Matched

namespace Expr

def matchWildcard (depth : Nat) (w : Wildcard) (candidate : Expr) (b : Bindings) : Matched :=
  match b.find? w with
  | none => .succeed (b.insert w candidate).2 [.bound depth w candidate]
  | some bound =>
      if bound.same candidate then .succeed b []
      else .fail b (.rebinding w bound candidate) [.notRebound depth w]

def matchLeaf (pattern candidate : Expr) (b : Bindings) : Matched :=
  if pattern.same candidate then .succeed b [] else .fail b (.leaf pattern candidate) []

def matchOther (depth : Nat) (expected found : Kind) (b : Bindings) : Matched :=
  .fail b (.kind expected found) [.otherKind depth expected found]

def matchAt (depth : Nat) (candidate : Expr) : (pattern : Expr) → Bindings → Matched
  | .leaf h (.wildcard w), b =>
      .after (.tried depth candidate (.leaf h (.wildcard w))) (matchWildcard depth w candidate b)
  | .leaf h x, b => .after (.tried depth candidate (.leaf h x)) (matchLeaf (.leaf h x) candidate b)
  | .unary h op p, b =>
      .after (.tried depth candidate (.unary h op p)) <|
        match candidate with
        | .unary _ op' x =>
            if op.kind = op'.kind then matchAt (depth + 1) x p b
            else matchOther depth op.kind op'.kind b
        | _ => matchOther depth op.kind candidate.kind b
  | .binary h op p q, b =>
      .after (.tried depth candidate (.binary h op p q)) <|
        match candidate with
        | .binary _ op' l r =>
            if op.kind = op'.kind then
              (matchAt (depth + 1) l p b).andThen fun b => matchAt (depth + 1) r q b
            else matchOther depth op.kind op'.kind b
        | _ => matchOther depth op.kind candidate.kind b

def matchPattern (candidate pattern : Expr) (b : Bindings) : Matched :=
  matchAt 0 candidate pattern b

end Expr

end LazyMatrix
