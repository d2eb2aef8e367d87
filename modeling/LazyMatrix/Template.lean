import LazyMatrix.Pattern.Construct
import LazyMatrix.Pattern.Match
import LazyMatrix.Pass

/-! Templates, rules given by example: an expression that matches the source pattern becomes the
target pattern filled in. A template can be applied without having been checked; `check` says
whether the source binds all that the target asks for. -/

namespace LazyMatrix

structure Template where
  name : String
  source : Expr
  target : Expr

structure BrokenTemplate where
  name : String
  error : Unbound
  deriving DecidableEq, Repr

def BrokenTemplate.message (e : BrokenTemplate) : String :=
  s!"template '{e.name}': {e.error.message}"

namespace Template

/-- The wildcards of the source, each once, in the order in which they are first met. -/
def vars (t : Template) : List Wildcard := t.source.wildcards.eraseDups

def check (t : Template) : Except Unbound Unit :=
  let bound := t.source.wildcards
  match (Cursor.start t.target).find? fun w => !bound.contains w with
  | some w => .error ⟨w⟩
  | none => .ok ()

def flip (t : Template) : Template := ⟨t.name ++ "-rev", t.target, t.source⟩

@[simp] theorem flip_source (t : Template) : t.flip.source = t.target := rfl

@[simp] theorem flip_target (t : Template) : t.flip.target = t.source := rfl

def orBroken (t : Template) : Except BrokenTemplate Template :=
  match t.check with
  | .ok () => .ok t
  | .error e => .error ⟨t.name, e⟩

def checked (name : String) (source target : Expr) : Except BrokenTemplate Template :=
  orBroken ⟨name, source, target⟩

/-- A rule and its reverse, the rule checked first. -/
def twoWay (name : String) (source target : Expr) :
    Except BrokenTemplate (Template × Template) := do
  let t ← checked name source target
  return (t, ← t.flip.orBroken)

def matchWith (t : Template) (e : Expr) : Attempt MatchError Bindings := do
  let m := e.matchPattern t.source {}
  Session.noteAll m.events
  match m.error with
  | none => return m.bindings
  | some error => throw error

def apply (t : Template) (e : Expr) : Attempt PassError Expr := do
  match ← (t.matchWith e).run with
  | .error error =>
      Session.note (.declined t.name error)
      throw (.mismatch error)
  | .ok bindings =>
      match ← (t.target.construct bindings).run with
      | .error error => throw (.broken error)
      | .ok result =>
          Session.note (.applied t.name e result)
          return result

def toPass (t : Template) : Pass := ⟨t.name, t.apply⟩

def everywhere (t : Template) : Pass := t.toPass.everywhere

def text (t : Template) : String := s!"Template({t.name}: {t.source.text} => {t.target.text})"

end Template

end LazyMatrix
