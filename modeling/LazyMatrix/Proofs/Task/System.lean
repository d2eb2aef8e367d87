import LazyMatrix.Proofs.Task.Evaluation
import Mathlib.Logic.Function.Basic
import Mathlib.Logic.Relation

/-! Tasks that run in any order. A client makes futures, evaluates, and copies what it has; every
future has a task, which may start others. The cells of the client and those that a task starts on
its own are told apart by where they come from, which does not depend on the order. -/

namespace LazyMatrix

/-- Where a cell comes from: which of the client's cells it is, or which of the cells that the task
of another cell made. The last of them stands first in the path. -/
structure Address where
  root : Nat
  path : List Nat
  deriving DecidableEq, Repr

def Address.child (a : Address) (n : Nat) : Address := ⟨a.root, n :: a.path⟩

def Ref.ofClient : Ref → Address
  | .shared n => ⟨n, []⟩
  | .own n => ⟨n, []⟩

def Ref.ofTask (a : Address) : Ref → Address
  | .shared n => ⟨n, []⟩
  | .own n => a.child n

structure Thread (α : Type) where
  rest : Activity α
  made : Nat

inductive Cell where
  | running (e : Expr) (thread : Thread Outcome)
  | written (o : Outcome)

abbrev Cells := Address → Option Cell

open Function (update)

/-- A thread goes one step further, when `there` cells of the client exist. It waits for a cell until
it is written, and an expression that it starts holds no other futures than there are. -/
inductive Acts {α : Type} (scope : Ref → Address) (there : Nat) (cells : Cells) :
    Thread α → Thread α → Cells → Prop where
  | wait {c : Ref} {next : Outcome → Activity α} {n : Nat} {o : Outcome}
      (ended : cells (scope c) = some (.written o)) :
      Acts scope there cells ⟨.wait c next, n⟩ ⟨next o, n⟩ cells
  | start {e : Expr} {next : Nat → Activity α} {n : Nat} (known : e.within there = true) :
      Acts scope there cells ⟨.start e next, n⟩ ⟨next n, n + 1⟩
        (update cells (scope (.own n)) (some (.running e ⟨e.task, 0⟩)))
  | hold {o : Outcome} {next : Nat → Activity α} {n : Nat} :
      Acts scope there cells ⟨.hold o next, n⟩ ⟨next n, n + 1⟩
        (update cells (scope (.own n)) (some (.written o)))

structure System (α : Type) where
  client : Thread α
  cells : Cells

namespace System

variable {α : Type}

inductive TaskStep : System α → System α → Prop where
  | act {S : System α} {a : Address} {e : Expr} {t t' : Thread Outcome} {cells : Cells}
      (running : S.cells a = some (.running e t))
      (acts : Acts (Ref.ofTask a) S.client.made S.cells t t' cells) :
      TaskStep S ⟨S.client, update cells a (some (.running e t'))⟩
  | finish {S : System α} {a : Address} {e : Expr} {o : Outcome} {n : Nat}
      (running : S.cells a = some (.running e ⟨.done o, n⟩)) :
      TaskStep S ⟨S.client, update S.cells a (some (.written o))⟩

inductive Step : System α → System α → Prop where
  | client {S : System α} {t : Thread α} {cells : Cells}
      (acts : Acts Ref.ofClient S.client.made S.cells S.client t cells) : Step S ⟨t, cells⟩
  | task {S S' : System α} (h : TaskStep S S') : Step S S'

def initial (client : Activity α) : System α := ⟨⟨client, 0⟩, fun _ => none⟩

abbrev Reaches : System α → System α → Prop := Relation.ReflTransGen Step

end System

def foretold (made : List Made) (root : Nat) : List Nat → Option Made
  | [] => made[root]?
  | n :: path => do
      let m ← foretold made root path
      let e ← m.task
      (e.children (made.take root))[n]?

namespace Activity

variable {α : Type} (client : Activity α)

/-- The cells that a client makes, with every task finished when it is started. -/
def plan : List Made := (client.foresee id []).2

def older (a : Address) : List Made := client.plan.take a.root

/-- What is written to a cell if every task is finished when it is started. -/
def settled (a : Address) : Option Made := foretold client.plan a.root a.path

variable {client} {a : Address} {e : Expr} {o : Outcome}

theorem settled_child (h : client.settled a = some ⟨some e, o⟩) (n : Nat) :
    client.settled (a.child n) = (e.children (client.older a))[n]? := by
  have h : foretold client.plan a.root a.path = some ⟨some e, o⟩ := h
  simp only [settled, Address.child, foretold, h]
  rfl

theorem length_older_le (a : Address) : (client.older a).length ≤ a.root :=
  List.length_take_le _ _

/-- A task only reads cells that are older than the client's cell that it belongs to, and ends in what
they lead to. -/
theorem settled_spec (h : client.settled a = some ⟨some e, o⟩) :
    e.within (client.older a).length = true ∧ o = e.destiny (client.older a) := by
  obtain ⟨root, path⟩ := a
  cases path with
  | nil => exact foretold_foresee id client [] root e o (Nat.zero_le _) h
  | cons n path =>
    obtain ⟨m, -, h⟩ := Option.bind_eq_some_iff.1 h
    obtain ⟨x, -, found⟩ := Option.bind_eq_some_iff.1 h
    exact foretold_foresee (fun _ => client.plan.take root) x.task [] n e o (Nat.zero_le _)
      found

theorem settled_size (h : client.settled a = some ⟨some e, o⟩) {n : Nat} {e' : Expr} {o' : Outcome}
    (h' : client.settled (a.child n) = some ⟨some e', o'⟩) : e'.size < e.size := by
  rw [settled_child h] at h'
  exact (e.task_foresee (settled_spec h).1).2 _ (List.mem_of_getElem? h') e' rfl

end Activity

end LazyMatrix
