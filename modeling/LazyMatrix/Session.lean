import LazyMatrix.Event

/-! The state that building expressions goes through: the next free number for a handle or a cell,
the names of the wildcards, and the log. It survives a failure, so what an attempt has numbered,
named and logged stays that way. -/

namespace LazyMatrix

structure Session where
  next : Nat := 0
  names : Names := {}
  log : Array Event := #[]

abbrev Build := StateM Session

/-- A piece of building that may end in an `ε`. -/
abbrev Attempt (ε : Type) := ExceptT ε Build

namespace Session

def fresh : Build Nat := modifyGet fun s => (s.next, { s with next := s.next + 1 })

def note (e : Event) : Build Unit := modify fun s => { s with log := s.log.push e }

def noteAll (events : List Event) : Build Unit :=
  modify fun s => { s with log := s.log.appendList events }

end Session

namespace Wildcard

def named (name : String) : Build Wildcard :=
  modifyGet fun s => let (w, names) := s.names.intern name; (w, { s with names })

def fresh : Build Wildcard :=
  modifyGet fun s => let (w, names) := s.names.fresh; (w, { s with names })

def read (text : String) : Attempt MalformedName Wildcard :=
  if isName text then named text else throw ⟨text⟩

end Wildcard

end LazyMatrix
