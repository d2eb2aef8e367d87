import LazyMatrix.Expr.Text

/-! What each wildcard of a pattern stands for, in the order in which they were bound. -/

namespace LazyMatrix

structure Bindings where
  pairs : List (Wildcard × Expr) := []

namespace Bindings

def empty : Bindings := {}

def size (b : Bindings) : Nat := b.pairs.length

def isEmpty (b : Bindings) : Bool := b.pairs.isEmpty

def find? (b : Bindings) (w : Wildcard) : Option Expr :=
  (b.pairs.find? fun pair => pair.1 == w).map Prod.snd

/-- Binds a wildcard. One that is bound already keeps its place and gives up its old expression. -/
def insert (b : Bindings) (w : Wildcard) (e : Expr) : Option Expr × Bindings :=
  match b.find? w with
  | some old => (some old, ⟨b.pairs.map fun pair => if pair.1 == w then (w, e) else pair⟩)
  | none => (none, ⟨b.pairs ++ [(w, e)]⟩)

def text (b : Bindings) : String :=
  "\x7b" ++ ", ".intercalate (b.pairs.map fun (w, e) => s!"{w.name}: {e.text}") ++ "\x7d"

end Bindings

structure MissingBinding where
  wildcard : Wildcard
  bindings : Bindings

def MissingBinding.message (e : MissingBinding) : String :=
  s!"Wildcard '{e.wildcard.name}' not found in {e.bindings.text}"

def Bindings.get (b : Bindings) (w : Wildcard) : Except MissingBinding Expr :=
  match b.find? w with
  | some e => .ok e
  | none => .error ⟨w, b⟩

end LazyMatrix
