import LazyMatrix.Pattern.Construct
import LazyMatrix.Proofs.Parallel
import LazyMatrix.Proofs.Pattern.Erased
import Mathlib.Data.List.Forall2

/-! Matching and filling in, on paired nodes. A pattern without literals and futures asks of a node
only what kind it is and whether it is the one bound before, and on both the nodes of a pair answer
alike. So what it binds is paired, and so is what it is filled in to. -/

namespace LazyMatrix

variable {ρ ρ' : Expr → Expr → Prop}

inductive MatchError.Alike : MatchError → MatchError → Prop where
  | kind (expected found : Kind) : Alike (.kind expected found) (.kind expected found)
  | rebinding (w : Wildcard) {bound bound' found found' : Expr}
      (bounds : Expr.Isomorphic bound bound') (founds : Expr.Isomorphic found found') :
      Alike (.rebinding w bound found) (.rebinding w bound' found')

/-- The same wildcards are bound in the same order, to paired nodes. -/
def Bindings.Paired (ρ : Expr → Expr → Prop) (b b' : Bindings) : Prop :=
  List.Forall₂ (fun x y => x.1 = y.1 ∧ ρ x.2 y.2) b.pairs b'.pairs

theorem Bindings.paired_empty : Bindings.Paired ρ {} {} := .nil

namespace Bindings.Paired

variable {b b' : Bindings}

theorem find? (h : b.Paired ρ b') (w : Wildcard) : Option.Rel ρ (b.find? w) (b'.find? w) := by
  rw [Bindings.find?, Bindings.find?]
  rw [Paired] at h
  generalize b.pairs = pairs, b'.pairs = pairs' at h
  induction h with
  | nil => exact .none
  | @cons x y xs ys first rest ih =>
    obtain ⟨wildcard, paired⟩ := first
    rw [List.find?_cons, List.find?_cons, wildcard]
    cases y.1 == w with
    | true => exact .some paired
    | false => exact ih

theorem insert (h : b.Paired ρ b') {w : Wildcard} (free : b.find? w = none)
    (free' : b'.find? w = none) {x y : Expr} (hxy : ρ x y) :
    (b.insert w x).2.Paired ρ (b'.insert w y).2 := by
  rw [Paired, insert_pairs free, insert_pairs free']
  exact List.rel_append h (.cons ⟨rfl, hxy⟩ .nil)

theorem mono (h : b.Paired ρ b') (le : ρ ≤ ρ') : b.Paired ρ' b' :=
  List.Forall₂.imp (fun _ _ pair => ⟨pair.1, le _ _ pair.2⟩) h

end Bindings.Paired

structure Matched.Paired (ρ : Expr → Expr → Prop) (m m' : Matched) : Prop where
  bindings : m.bindings.Paired ρ m'.bindings
  error : Option.Rel MatchError.Alike m.error m'.error

namespace Matched

variable {m m' : Matched} {b b' : Bindings}

theorem paired_succeed (h : b.Paired ρ b') (es es' : List Event) :
    (succeed b es).Paired ρ (succeed b' es') := ⟨h, .none⟩

theorem paired_fail (h : b.Paired ρ b') {e e' : MatchError} (alike : e.Alike e')
    (es es' : List Event) : (fail b e es).Paired ρ (fail b' e' es') := ⟨h, .some alike⟩

theorem Paired.after (h : m.Paired ρ m') (e e' : Event) :
    (Matched.after e m).Paired ρ (Matched.after e' m') := ⟨h.bindings, h.error⟩

theorem Paired.andThen (h : m.Paired ρ m') {f g : Bindings → Matched}
    (next : ∀ b b', b.Paired ρ b' → (f b).Paired ρ (g b')) :
    (m.andThen f).Paired ρ (m'.andThen g) := by
  obtain ⟨b, e, es⟩ := m
  obtain ⟨b', e', es'⟩ := m'
  cases h.error with
  | none =>
    have done := next b b' h.bindings
    exact ⟨done.bindings, done.error⟩
  | some alike => exact ⟨h.bindings, .some alike⟩

end Matched

namespace Expr

variable {next next' : Nat} {b b' : Bindings} {x y : Expr}

theorem matchWildcard_paired (h : Pairing ρ next next') (hxy : ρ x y) (hb : b.Paired ρ b')
    (depth : Nat) (w : Wildcard) :
    (matchWildcard depth w x b).Paired ρ (matchWildcard depth w y b') := by
  have found := hb.find? w
  rw [matchWildcard, matchWildcard]
  cases free : b.find? w with
  | none =>
    cases free' : b'.find? w with
    | none => exact Matched.paired_succeed (hb.insert free free' hxy) _ _
    | some bound' => simp [free, free'] at found
  | some bound =>
    cases free' : b'.find? w with
    | none => simp [free, free'] at found
    | some bound' =>
      rw [free, free'] at found
      obtain ⟨paired⟩ := found
      simp only [h.same_eq paired hxy]
      split
      · exact Matched.paired_succeed hb _ _
      · exact Matched.paired_fail hb (.rebinding w (h.isomorphic paired) (h.isomorphic hxy)) _ _

theorem matchOther_paired (hb : b.Paired ρ b') (depth : Nat) (expected found : Kind) :
    (matchOther depth expected found b).Paired ρ (matchOther depth expected found b') :=
  Matched.paired_fail hb (.kind expected found) _ _

theorem matchAt_paired (h : Pairing ρ next next') {p : Expr} (wild : p.Wild) (hxy : ρ x y)
    (hb : b.Paired ρ b') (depth : Nat) :
    (matchAt depth x p b).Paired ρ (matchAt depth y p b') := by
  induction p generalizing x y b b' depth with
  | leaf i a =>
    cases a with
    | wildcard w =>
      rw [matchAt, matchAt]
      exact (matchWildcard_paired h hxy hb depth w).after _ _
    | literal | future => exact wild.elim
  | unary i op p ih =>
    have kinds := (h.mirrors x y hxy).kind_eq
    by_cases same : op.kind = x.kind
    · obtain ⟨j, op', x, rfl⟩ := eq_unary_of_kind same
      cases h.mirrors _ _ hxy with
      | unary _ _ _ operand =>
        have same : op.kind = op'.kind := same
        rw [matchAt, matchAt, if_pos same, if_pos same]
        exact (ih wild operand hb (depth + 1)).after _ _
    · rw [matchAt_unary_of_ne same, matchAt_unary_of_ne (kinds ▸ same), kinds]
      exact (matchOther_paired hb depth _ _).after _ _
  | binary i op p q ihp ihq =>
    have kinds := (h.mirrors x y hxy).kind_eq
    by_cases same : op.kind = x.kind
    · obtain ⟨j, op', l, r, rfl⟩ := eq_binary_of_kind same
      cases h.mirrors _ _ hxy with
      | binary _ _ _ left right =>
        have same : op.kind = op'.kind := same
        rw [matchAt, matchAt, if_pos same, if_pos same]
        refine Matched.Paired.after ?_ _ _
        exact (ihp wild.1 left hb (depth + 1)).andThen fun _ _ hb =>
          ihq wild.2 right hb (depth + 1)
    · rw [matchAt_binary_of_ne same, matchAt_binary_of_ne (kinds ▸ same), kinds]
      exact (matchOther_paired hb depth _ _).after _ _

theorem construct_abreast {p : Expr} (wild : p.Wild) (hb : b.Paired ρ b') :
    Abreast ρ (construct b p) (construct b' p) Eq fun ρ' => ρ' := by
  induction p generalizing ρ with
  | leaf i a =>
    cases a with
    | wildcard w =>
      have found := hb.find? w
      rw [construct, construct, constructLeaf, constructLeaf]
      generalize b.find? w = x, b'.find? w = y at found
      cases found with
      | none => exact abreast_throw rfl
      | some paired => exact abreast_pure paired
    | literal | future => exact wild.elim
  | unary i op p ih =>
    rw [construct, construct]
    exact abreast_bind (ih wild hb) fun ρ' x y _ paired =>
      abreast_lift (parallel_newUnary op paired)
  | binary i op p q ihp ihq =>
    rw [construct, construct]
    refine abreast_bind (ihp wild.1 hb) fun ρ₁ l l' le left => ?_
    refine abreast_bind (ihq wild.2 (hb.mono le)) fun ρ₂ r r' le' right => ?_
    exact abreast_lift (parallel_newBinary op (le' _ _ left) right)

end Expr

end LazyMatrix
