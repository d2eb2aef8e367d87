import LazyMatrix.Proofs.Building
import LazyMatrix.Proofs.Task.Settling

/-! No wildcard is ever evaluated. An expression with a wildcard somewhere is refused before a task
is started for it, and neither evaluation nor validation comes to a good end on it, whatever its
tasks do. Nothing is asked here of what a client hands over: a thread starts whatever it comes to
start, and it is the search for wildcards alone that keeps them from the tasks. -/

namespace LazyMatrix

open Function (update)

namespace Activity

variable {α β ε : Type}

/-- The activity may come to `a`. What others write to the cells that it waits for is left open. -/
def Returns (x : ExceptT ε Activity α) (a : α) : Prop := x.run.Leads (.done (.ok a))

theorem leads_bind {x : Activity α} {f : α → Activity β} {b : β}
    (h : (x.bind f).Leads (.done b)) : ∃ a, x.Leads (.done a) ∧ (f a).Leads (.done b) := by
  induction x with
  | done a => exact ⟨a, .refl _, h⟩
  | wait c next ih =>
    cases h with
    | wait o h =>
      obtain ⟨a, first, rest⟩ := ih o h
      exact ⟨a, .wait o first, rest⟩
  | start e next ih =>
    cases h with
    | start n h =>
      obtain ⟨a, first, rest⟩ := ih n h
      exact ⟨a, .start n first, rest⟩
  | hold o next ih =>
    cases h with
    | hold n h =>
      obtain ⟨a, first, rest⟩ := ih n h
      exact ⟨a, .hold n first, rest⟩

theorem returns_bind {x : ExceptT ε Activity α} {f : α → ExceptT ε Activity β} {b : β}
    (h : Returns (x >>= f) b) : ∃ a, Returns x a ∧ Returns (f a) b := by
  obtain ⟨r, first, rest⟩ := leads_bind (x := x.run) h
  cases r with
  | error e => cases rest
  | ok a => exact ⟨a, first, rest⟩

theorem not_returns_throw {e : ε} {a : α} : ¬ Returns (throw e : ExceptT ε Activity α) a := nofun

/-- Whatever the activity starts has no wildcards. -/
def Careful : Activity α → Prop
  | .done _ => True
  | .wait _ next => ∀ o, (next o).Careful
  | .start e next => e.Ground ∧ ∀ n, (next n).Careful
  | .hold _ next => ∀ n, (next n).Careful

theorem careful_bind {x : Activity α} {f : α → Activity β} (hx : x.Careful)
    (hf : ∀ a, (f a).Careful) : (x >>= f).Careful := by
  change (x.bind f).Careful
  induction x with
  | done a => exact hf a
  | wait c next ih => exact fun o => ih o (hx o)
  | start e next ih => exact ⟨hx.1, fun n => ih n (hx.2 n)⟩
  | hold o next ih => exact fun n => ih n (hx n)

theorem careful_bind_run {x : ExceptT ε Activity α} {f : α → ExceptT ε Activity β}
    (hx : x.run.Careful) (hf : ∀ a, (f a).run.Careful) : (x >>= f).run.Careful := by
  refine careful_bind hx fun r => ?_
  cases r with
  | error e => trivial
  | ok a => exact hf a

theorem careful_give (x : Except ε α) : (give x).run.Careful := trivial

end Activity

open Activity

theorem Held.careful_read {α : Type} (x : Held) (f : Literal → Except Fault α) :
    (x.read f).run.Careful := by
  cases x with
  | ready d => trivial
  | pending shape cell => exact fun _ => trivial

namespace Expr

variable {e : Expr}

theorem ground_of_launch {x : Held} (h : Returns e.launch x) : e.Ground := by
  rw [launch] at h
  split at h
  · exact absurd h not_returns_throw
  · next none => exact firstWildcard?_eq_none_iff.1 none

theorem ground_of_evaluate {x : Held} (h : Returns e.evaluate x) : e.Ground := by
  induction e generalizing x with
  | leaf i a =>
    cases a with
    | literal | future => trivial
    | wildcard w => exact absurd h not_returns_throw
  | unary i op a ih =>
    cases op with
    | scale | transpose =>
      obtain ⟨_, operand, -⟩ := returns_bind h
      exact ih operand
    | async =>
      have ground : a.Ground := ground_of_launch h
      exact ground
  | binary i op l r ihl ihr =>
    -- Both operands are evaluated before the values of either are read.
    cases op with
    | elementwise | product =>
      obtain ⟨_, left, rest⟩ := returns_bind h
      obtain ⟨_, right, -⟩ := returns_bind rest
      exact ⟨ihl left, ihr right⟩

theorem ground_of_judging (h : Returns e.judging ()) : e.Ground := by
  induction e with
  | leaf i a =>
    cases a with
    | literal | future => trivial
    | wildcard w => exact absurd h not_returns_throw
  | unary i op a ih => exact ih h
  | binary i op l r ihl ihr =>
    obtain ⟨_, left, rest⟩ := returns_bind h
    obtain ⟨_, right, -⟩ := returns_bind rest
    exact ⟨ihl left, ihr right⟩

theorem ground_of_promise {p : Promise} (h : e.promise = .ok p) : e.Ground := by
  rw [promise, promiseBy] at h
  split at h
  · cases h
  · next none => exact firstWildcard?_eq_none_iff.1 none

theorem ground_of_eval {lit : Literal} (h : e.eval = .ok lit) : e.Ground := by
  induction e generalizing lit with
  | leaf i a =>
    cases a with
    | literal | future => trivial
    | wildcard w => cases h
  | unary i op a ih =>
    cases op with
    | scale | transpose =>
      obtain ⟨_, operand, -⟩ := bind_eq_ok.1 h
      exact ih operand
    | async =>
      obtain ⟨p, promised, -⟩ := bind_eq_ok.1 h
      have ground : a.Ground := ground_of_promise promised
      exact ground
  | binary i op l r ihl ihr =>
    cases op with
    | elementwise | product =>
      obtain ⟨_, left, rest⟩ := bind_eq_ok.1 h
      obtain ⟨_, right, -⟩ := bind_eq_ok.1 rest
      exact ⟨ihl left, ihr right⟩

theorem ground_of_validate (h : e.validate = .ok ()) : e.Ground := by
  induction e with
  | leaf i a =>
    cases a with
    | literal | future => trivial
    | wildcard w => cases h
  | unary i op a ih => exact ih h
  | binary i op l r ihl ihr =>
    obtain ⟨left, right, -⟩ := validate_binary.1 h
    exact ⟨ihl left, ihr right⟩

theorem refused_of_not_ground (h : ¬ e.Ground) : ∃ w, e.wildcards.head? = some w ∧
    e.launch = throw (.wildcard .evaluate w) ∧
    ∀ s : Session, s.run e.background.run = (.error (.wildcard .evaluate w), s) := by
  have some : e.firstWildcard? ≠ none := fun none => h (firstWildcard?_eq_none_iff.1 none)
  obtain ⟨w, found⟩ := Option.ne_none_iff_exists'.1 some
  refine ⟨w, ?_, ?_, fun s => ?_⟩
  · rw [wildcards_eq, ← firstWildcard?_eq_head?, found]
  · rw [launch, found]
  · have promised : e.promise = .error (.wildcard .evaluate w) := by rw [promise, promiseBy, found]
    rw [background, promised]
    rfl

theorem careful_launch (e : Expr) : e.launch.run.Careful := by
  rw [launch]
  split
  · trivial
  · next none => exact ⟨firstWildcard?_eq_none_iff.1 none, fun _ => trivial⟩

theorem careful_evaluate (e : Expr) : e.evaluate.run.Careful := by
  induction e with
  | leaf i a => cases a <;> trivial
  | unary i op a ih =>
    cases op with
    | scale | transpose =>
      refine careful_bind_run ih fun x => careful_bind_run (x.careful_read _) fun d => ?_
      exact careful_bind_run (careful_give _) fun _ => trivial
    | async => exact careful_launch a
  | binary i op l r ihl ihr =>
    cases op with
    | elementwise f =>
      refine careful_bind_run ihl fun x => careful_bind_run ihr fun y => ?_
      refine careful_bind_run (y.careful_read _) fun ys => ?_
      exact careful_bind_run (x.careful_read _) fun xs => trivial
    | product =>
      refine careful_bind_run ihl fun x => careful_bind_run ihr fun y => ?_
      refine careful_bind_run (x.careful_read _) fun d => ?_
      refine careful_bind_run (y.careful_read _) fun d' => ?_
      exact careful_bind_run (careful_give _) fun _ => trivial

theorem careful_judging (e : Expr) : e.judging.run.Careful := by
  induction e with
  | leaf i a =>
    cases a with
    | literal | wildcard => trivial
    | future f => exact fun _ => trivial
  | unary i op a ih => exact ih
  | binary i op l r ihl ihr =>
    exact careful_bind_run ihl fun _ => careful_bind_run ihr fun _ => careful_give _

theorem careful_evaluateToDense (e : Expr) : e.evaluateToDense.run.Careful :=
  careful_bind_run e.careful_evaluate fun x => x.careful_read _

theorem careful_task (e : Expr) : e.task.Careful := by
  refine careful_bind e.careful_judging fun r => ?_
  cases r with
  | error stop => trivial
  | ok _ => exact careful_bind e.careful_evaluateToDense fun _ => trivial

end Expr

/-- Made of what a client can do: read what is in a cell, make one that is written, as a copy has,
start a future, evaluate and validate, each time with whatever it has come to until then. -/
inductive Activity.Calls {α : Type} : Activity α → Prop where
  | done (a : α) : Calls (.done a)
  | wait (c : Ref) {next : Outcome → Activity α} (h : ∀ o, Calls (next o)) : Calls (.wait c next)
  | hold (o : Outcome) {next : Nat → Activity α} (h : ∀ n, Calls (next n)) : Calls (.hold o next)
  | launch (e : Expr) {next : Except Fault Held → Activity α} (h : ∀ x, Calls (next x)) :
      Calls (e.launch.run >>= next)
  | evaluate (e : Expr) {next : Except Fault Held → Activity α} (h : ∀ x, Calls (next x)) :
      Calls (e.evaluate.run >>= next)
  | judging (e : Expr) {next : Except (Stop Error) Unit → Activity α} (h : ∀ x, Calls (next x)) :
      Calls (e.judging.run >>= next)

theorem Activity.Calls.careful {α : Type} {x : Activity α} (h : x.Calls) : x.Careful := by
  induction h with
  | done a => trivial
  | wait c _ ih => exact ih
  | hold o _ ih => exact ih
  | launch e _ ih => exact careful_bind e.careful_launch ih
  | evaluate e _ ih => exact careful_bind e.careful_evaluate ih
  | judging e _ ih => exact careful_bind e.careful_judging ih

inductive Moves {α : Type} (scope : Ref → Address) (cells : Cells) :
    Thread α → Thread α → Cells → Prop where
  | wait {c : Ref} {next : Outcome → Activity α} {n : Nat} {o : Outcome}
      (ended : cells (scope c) = some (.written o)) :
      Moves scope cells ⟨.wait c next, n⟩ ⟨next o, n⟩ cells
  | start {e : Expr} {next : Nat → Activity α} {n : Nat} :
      Moves scope cells ⟨.start e next, n⟩ ⟨next n, n + 1⟩
        (update cells (scope (.own n)) (some (.running e ⟨e.task, 0⟩)))
  | hold {o : Outcome} {next : Nat → Activity α} {n : Nat} :
      Moves scope cells ⟨.hold o next, n⟩ ⟨next n, n + 1⟩
        (update cells (scope (.own n)) (some (.written o)))

/-- A running task is that of an expression without wildcards, and careful from there on. -/
def Cell.Guarded : Cell → Prop
  | .running e t => e.Ground ∧ t.rest.Careful
  | .written _ => True

def Cells.Guarded (cells : Cells) : Prop := ∀ a c, cells a = some c → c.Guarded

theorem Cells.Guarded.update {cells : Cells} (h : cells.Guarded) (a : Address) {c : Cell}
    (hc : c.Guarded) : Cells.Guarded (update cells a (some c)) :=
  forall_update h hc

section

variable {α : Type} {scope : Ref → Address} {cells cells' : Cells} {t t' : Thread α}

theorem Acts.moves {there : Nat} (acts : Acts scope there cells t t' cells') :
    Moves scope cells t t' cells' := by
  cases acts with
  | wait ended => exact .wait ended
  | start => exact .start
  | hold => exact .hold

theorem Moves.guarded (moves : Moves scope cells t t' cells') (careful : t.rest.Careful)
    (guarded : cells.Guarded) : t'.rest.Careful ∧ cells'.Guarded := by
  cases moves with
  | wait => exact ⟨careful _, guarded⟩
  | @start e =>
    obtain ⟨ground, rest⟩ := careful
    exact ⟨rest _, guarded.update _ ⟨ground, e.careful_task⟩⟩
  | hold => exact ⟨careful _, guarded.update _ trivial⟩

end

namespace System

variable {α : Type} {client : Activity α} {S S' : System α}

inductive Goes : System α → System α → Prop where
  | client {S : System α} {t : Thread α} {cells : Cells}
      (moves : Moves Ref.ofClient S.cells S.client t cells) : Goes S ⟨t, cells⟩
  | task {S : System α} {a : Address} {e : Expr} {t t' : Thread Outcome} {cells : Cells}
      (running : S.cells a = some (.running e t))
      (moves : Moves (Ref.ofTask a) S.cells t t' cells) :
      Goes S ⟨S.client, update cells a (some (.running e t'))⟩
  | finish {S : System α} {a : Address} {e : Expr} {o : Outcome} {n : Nat}
      (running : S.cells a = some (.running e ⟨.done o, n⟩)) :
      Goes S ⟨S.client, update S.cells a (some (.written o))⟩

theorem Step.goes (step : S.Step S') : S.Goes S' := by
  cases step with
  | client acts => exact .client acts.moves
  | task step =>
    cases step with
    | act running acts => exact .task running acts.moves
    | finish running => exact .finish running

structure Guarded (S : System α) : Prop where
  client : S.client.rest.Careful
  cells : S.cells.Guarded

theorem Guarded.goes (guarded : S.Guarded) (goes : S.Goes S') : S'.Guarded := by
  cases goes with
  | client moves =>
    obtain ⟨careful, cells⟩ := moves.guarded guarded.client guarded.cells
    exact ⟨careful, cells⟩
  | @task a e t t' cells running moves =>
    obtain ⟨ground, careful⟩ := guarded.cells _ _ running
    obtain ⟨careful', cells⟩ := moves.guarded careful guarded.cells
    exact ⟨guarded.client, cells.update a ⟨ground, careful'⟩⟩
  | @finish a e o n running => exact ⟨guarded.client, guarded.cells.update a trivial⟩

theorem Guarded.run (calls : client.Calls)
    (run : Relation.ReflTransGen Goes (initial client) S) : S.Guarded := by
  induction run with
  | refl => exact ⟨calls.careful, fun _ _ found => nomatch found⟩
  | tail _ goes ih => exact ih.goes goes

/-- An expression with a wildcard somewhere, at whatever depth and whether its shapes agree or not,
is never evaluated to anything, no future is made of it, and it is never found valid; tasks that it
starts on the way change nothing about that. And whatever a client does, and in whichever order its
tasks and theirs go on, none of them is ever started for an expression with a wildcard. -/
theorem wildcards_refused :
    (∀ e : Expr, ¬ e.Ground →
      (∀ lit, e.eval ≠ .ok lit) ∧ (∀ x, ¬ Activity.Returns e.evaluate x) ∧
      (∃ w, e.wildcards.head? = some w ∧ e.launch = throw (.wildcard .evaluate w) ∧
        ∀ s : Session, s.run e.background.run = (.error (.wildcard .evaluate w), s)) ∧
      e.validate ≠ .ok () ∧ ¬ Activity.Returns e.judging ()) ∧
    ∀ {α : Type} (client : Activity α) (S : System α), client.Calls →
      Relation.ReflTransGen Goes (initial client) S →
        ∀ a e t, S.cells a = some (.running e t) → e.Ground := by
  refine ⟨fun e wild => ⟨?_, ?_, Expr.refused_of_not_ground wild, ?_, ?_⟩, ?_⟩
  · exact fun lit evaluated => wild (Expr.ground_of_eval evaluated)
  · exact fun x returned => wild (Expr.ground_of_evaluate returned)
  · exact fun valid => wild (Expr.ground_of_validate valid)
  · exact fun returned => wild (Expr.ground_of_judging returned)
  · intro α client S calls run a e t running
    exact ((Guarded.run calls run).cells a _ running).1

def hiddenWildcard : Expr :=
  .unary 4 .async (.unary 3 .async (.binary 2 .product (.leaf 0 (.literal ⟨⟨2, 0⟩, 1, #[]⟩))
    (.leaf 1 (.wildcard ⟨0, "?a"⟩))))

def retrying : Activity (Except Fault Held) := do
  let _ ← hiddenWildcard.launch.run
  Expr.paddedProduct.launch.run

theorem retrying_calls : retrying.Calls := by
  have last : Expr.paddedProduct.launch.run.Calls := by
    rw [← bind_pure Expr.paddedProduct.launch.run]
    exact .launch _ .done
  exact .launch _ fun _ => last

theorem retrying_wildcards_refused : ¬ hiddenWildcard.Ground ∧
    (∀ lit, hiddenWildcard.eval ≠ .ok lit) ∧ hiddenWildcard.validate ≠ .ok () ∧
    retrying.Calls ∧ ∃ S : System (Except Fault Held),
      Relation.ReflTransGen Goes (initial retrying) S ∧
      (∃ e t, S.cells ⟨0, [0]⟩ = some (.running e t)) ∧
      ∀ a e t, S.cells a = some (.running e t) → e.Ground := by
  have wild : ¬ hiddenWildcard.Ground := fun ground => ground.2
  obtain ⟨refused, started⟩ := wildcards_refused
  obtain ⟨evaluated, -, -, validated, -⟩ := refused hiddenWildcard wild
  have launched : (initial retrying).Goes _ := .client .start
  have reached := (Relation.ReflTransGen.single launched).tail
    (.task (a := ⟨0, []⟩) (t := ⟨Expr.paddedProduct.task, 0⟩) rfl .start)
  have ground := started retrying _ retrying_calls reached
  exact ⟨wild, evaluated, validated, retrying_calls, _, reached, ⟨_, _, rfl⟩, ground⟩

end System

end LazyMatrix
