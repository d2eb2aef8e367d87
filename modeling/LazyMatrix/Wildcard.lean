/-! Wildcards and the table of their names. A wildcard is its position in the table together with
the name found there, so it prints without the table. The table only grows: reading a name that it
has gives the wildcard it gave before. -/

namespace LazyMatrix

structure Wildcard where
  index : Nat
  name : String
  deriving DecidableEq, Repr

structure Names where
  entries : List String := []
  deriving DecidableEq, Repr

namespace Names

def empty : Names := {}

def size (t : Names) : Nat := t.entries.length

/-- The wildcard of a name, which is added to the table if it is new. -/
def intern (t : Names) (name : String) : Wildcard × Names :=
  match t.entries.idxOf? name with
  | some i => (⟨i, name⟩, t)
  | none => (⟨t.size, name⟩, ⟨t.entries ++ [name]⟩)

def anonymous (n : Nat) : String := s!"?_{n}"

/-- The first of `?_n`, `?_(n+1)`, … that the table lacks; `tries` of them are looked up. -/
def unused (t : Names) : (tries n : Nat) → String
  | 0, n => anonymous n
  | tries + 1, n =>
      if t.entries.contains (anonymous n) then unused t tries (n + 1) else anonymous n

/-- A wildcard under a name that was not in the table. Counting starts at the size of the table, and
that many look-ups suffice: they cannot all find their name. -/
def fresh (t : Names) : Wildcard × Names := t.intern (t.unused t.size t.size)

end Names

def Wildcard.isName (text : String) : Bool :=
  match text.toList with
  | '?' :: _ :: _ => true
  | _ => false

structure MalformedName where
  text : String
  deriving DecidableEq, Repr

def MalformedName.message (e : MalformedName) : String := s!"{e.text} doesn't start with '?'"

end LazyMatrix
