import LazyMatrix.Proofs.Task.Foretold

/-! Futures do not deadlock, and what they end in does not depend on the order in which tasks go
on. A task waits only for cells of the client that are older than the one that it belongs to, and
for those of tasks that it started itself, whose expressions are smaller. -/

namespace LazyMatrix

open Function (update)

variable {α : Type}

inductive Activity.Leads : Activity α → Activity α → Prop where
  | refl (x : Activity α) : Leads x x
  | wait {c : Ref} {next : Outcome → Activity α} {y : Activity α} (o : Outcome)
      (h : Leads (next o) y) : Leads (.wait c next) y
  | start {e : Expr} {next : Nat → Activity α} {y : Activity α} (n : Nat)
      (h : Leads (next n) y) : Leads (.start e next) y
  | hold {o : Outcome} {next : Nat → Activity α} {y : Activity α} (n : Nat)
      (h : Leads (next n) y) : Leads (.hold o next) y

theorem Activity.Leads.trans {x y z : Activity α} (h : Leads x y) (h' : Leads y z) : Leads x z := by
  induction h with
  | refl => exact h'
  | wait o _ ih => exact .wait o (ih h')
  | start n _ ih => exact .start n (ih h')
  | hold n _ ih => exact .hold n (ih h')

section

variable {scope : Ref → Address} {there : Nat} {cells cells' : Cells} {t t' : Thread α} {a : Address}

theorem Acts.leads (acts : Acts scope there cells t t' cells') : t.rest.Leads t'.rest := by
  cases acts with
  | wait => exact .wait _ (.refl _)
  | start => exact .start _ (.refl _)
  | hold => exact .hold _ (.refl _)

theorem Acts.cells_eq (acts : Acts scope there cells t t' cells')
    (free : cells (scope (.own t.made)) = none) (present : cells a ≠ none) : cells' a = cells a := by
  have other : a ≠ scope (.own t.made) := fun same => present (same ▸ free)
  cases acts with
  | wait => rfl
  | start => exact Function.update_of_ne other _ _
  | hold => exact Function.update_of_ne other _ _

end

/-- Tasks alone can go on until the cell is written. -/
def System.Finishes (S : System α) (a : Address) : Prop :=
  ∃ S' o, Relation.ReflTransGen TaskStep S S' ∧ S'.cells a = some (.written o)

namespace Sound

variable {client : Activity α} {S S' : System α} {a : Address} {e : Expr} {t : Thread Outcome}
  {o : Outcome}

theorem cells_of_taskStep (sound : Sound client S) (there : S.cells a ≠ none) (step : S.TaskStep S') :
    S'.cells a = S.cells a ∨ ∃ e t, S.cells a = some (.running e t) ∧
      ((∃ t', S'.cells a = some (.running e t') ∧ t.rest.Leads t'.rest) ∨
        ∃ o, S'.cells a = some (.written o)) := by
  cases step with
  | @act b e t t' cells running acts =>
    by_cases same : a = b
    · subst same
      exact .inr ⟨e, t, running, .inl ⟨t', Function.update_self .., acts.leads⟩⟩
    · have kept := acts.cells_eq (sound.grown.child_eq_none running) there
      exact .inl ((Function.update_of_ne same _ _).trans kept)
  | @finish b e o n running =>
    by_cases same : a = b
    · subst same
      exact .inr ⟨e, _, running, .inr ⟨o, Function.update_self ..⟩⟩
    · exact .inl (Function.update_of_ne same _ _)

theorem running_step (sound : Sound client S) (running : S.cells a = some (.running e t))
    (step : S.TaskStep S') : (∃ t', S'.cells a = some (.running e t') ∧ t.rest.Leads t'.rest) ∨
      ∃ o, S'.cells a = some (.written o) := by
  obtain kept | ⟨e', t', running', now⟩ := sound.cells_of_taskStep (a := a) (by simp [running]) step
  · exact .inl ⟨t, kept.trans running, .refl _⟩
  · obtain ⟨rfl, rfl⟩ := Cell.running.inj (Option.some.inj (running.symm.trans running'))
    exact now

theorem written_step (sound : Sound client S) (written : S.cells a = some (.written o))
    (step : S.Step S') : S'.cells a = some (.written o) := by
  have there : S.cells a ≠ none := by simp [written]
  cases step with
  | client acts => exact (acts.cells_eq sound.free_root there).trans written
  | task step =>
    obtain kept | ⟨e, t, running, -⟩ := sound.cells_of_taskStep there step
    · exact kept.trans written
    · exact nomatch written.symm.trans running

theorem written_run (sound : Sound client S) (written : S.cells a = some (.written o))
    (run : S.Reaches S') : S'.cells a = some (.written o) := by
  suffices Sound client S' ∧ S'.cells a = some (.written o) from this.2
  induction run with
  | refl => exact ⟨sound, written⟩
  | tail _ step ih => exact ⟨ih.1.step step, ih.1.written_step ih.2 step⟩

theorem running_run (sound : Sound client S) (running : S.cells a = some (.running e t))
    (run : Relation.ReflTransGen System.TaskStep S S') : Sound client S' ∧
      ((∃ t', S'.cells a = some (.running e t') ∧ t.rest.Leads t'.rest) ∨
        ∃ o, S'.cells a = some (.written o)) := by
  induction run with
  | refl => exact ⟨sound, .inl ⟨t, running, .refl _⟩⟩
  | tail _ step ih =>
    obtain ⟨sound, now⟩ := ih
    refine ⟨sound.task_step step, ?_⟩
    obtain ⟨t', running, leads⟩ | ⟨o, written⟩ := now
    · obtain ⟨t'', running, leads'⟩ | ended := sound.running_step running step
      · exact .inl ⟨t'', running, leads.trans leads'⟩
      · exact .inr ended
    · exact .inr ⟨o, sound.written_step written (.task step)⟩

theorem root_lt (sound : Sound client S) (running : S.cells a = some (.running e t)) :
    a.root < S.client.made :=
  (sound.roots _).1 (sound.grown.root_ne_none (by simp [running]))

theorem within_of_start (sound : Sound client S) {x : Expr} {next : Nat → Activity Outcome} {n : Nat}
    (running : S.cells a = some (.running e ⟨.start x next, n⟩)) :
    x.within S.client.made = true := by
  obtain ⟨-, own, -, told⟩ := sound.bears _ _ running
  have le : (client.older a).length ≤ S.client.made :=
    Nat.le_trans (Activity.length_older_le a) (Nat.le_of_lt (sound.root_lt running))
  exact Expr.within_mono le (Activity.within_of_foresee (fun _ => client.older a) told)

theorem cell_of_wait (sound : Sound client S) {c : Ref} {next : Outcome → Activity Outcome} {n : Nat}
    (running : S.cells a = some (.running e ⟨.wait c next, n⟩)) :
    S.cells (c.ofTask a) ≠ none ∧
      ((c.ofTask a).root < a.root ∨ ∃ k, c.ofTask a = a.child k) := by
  obtain ⟨-, own, length, told⟩ := sound.bears _ _ running
  obtain ⟨m, found⟩ := Activity.found_of_foresee (fun _ => client.older a) told
  have belongs := sound.root_lt running
  cases c with
  | shared k =>
    have lt : k < (client.older a).length := (List.getElem?_eq_some_iff.1 found).1
    have older := Nat.lt_of_lt_of_le lt (Activity.length_older_le a)
    exact ⟨(sound.roots k).2 (Nat.lt_trans older belongs), .inl older⟩
  | own k =>
    have lt : k < own.length := (List.getElem?_eq_some_iff.1 found).1
    exact ⟨(sound.grown.child _ _ _ running k).2 (length ▸ lt), .inr ⟨k, rfl⟩⟩

theorem finishes_of_acts (sound : Sound client S) (running : S.cells a = some (.running e t))
    {t' : Thread Outcome} {cells : Cells}
    (acts : Acts (Ref.ofTask a) S.client.made S.cells t t' cells)
    (after : ∀ S', Sound client S' → S'.cells a = some (.running e t') → S'.Finishes a) :
    S.Finishes a := by
  have step := System.TaskStep.act running acts
  obtain ⟨S', o, run, written⟩ := after _ (sound.task_step step) (Function.update_self ..)
  exact ⟨S', o, .head step run, written⟩

/-- A task ends if those that it may wait for do. The induction is on what is left to do. While the
task waits it may be brought further itself, so it is on what may be left at some later point. -/
theorem finishes_of (below : ∀ S, Sound client S → ∀ b e' t', S.cells b = some (.running e' t') →
      b.root < a.root ∨ (∃ k, b = a.child k) → S.Finishes b)
    (x : Activity Outcome) : ∀ y, x.Leads y → ∀ S n, Sound client S →
      S.cells a = some (.running e ⟨y, n⟩) → S.Finishes a := by
  induction x with
  | done o =>
    intro y leads S n sound running
    cases leads
    exact ⟨_, o, .single (.finish running), Function.update_self ..⟩
  | start x next ih =>
    intro y leads S n sound running
    cases leads with
    | refl =>
      exact sound.finishes_of_acts running (.start (sound.within_of_start running)) fun S' =>
        ih n _ (.refl _) S' (n + 1)
    | start k leads => exact ih k y leads S n sound running
  | hold o next ih =>
    intro y leads S n sound running
    cases leads with
    | refl =>
      exact sound.finishes_of_acts running .hold fun S' => ih n _ (.refl _) S' (n + 1)
    | hold k leads => exact ih k y leads S n sound running
  | wait c next ih =>
    have ended (S : System α) (n : Nat) (o : Outcome) (sound : Sound client S)
        (running : S.cells a = some (.running e ⟨.wait c next, n⟩))
        (written : S.cells (c.ofTask a) = some (.written o)) : S.Finishes a :=
      sound.finishes_of_acts running (.wait written) fun S' => ih o _ (.refl _) S' n
    intro y leads S n sound running
    cases leads with
    | wait o leads => exact ih o y leads S n sound running
    | refl =>
      obtain ⟨there, lower⟩ := sound.cell_of_wait running
      obtain ⟨cell, found⟩ := Option.ne_none_iff_exists'.1 there
      cases cell with
      | written o => exact ended S n o sound running found
      | running e' t' =>
        obtain ⟨S', o, run, written⟩ := below S sound _ e' t' found lower
        have finishes' : S'.Finishes a := by
          obtain ⟨sound', ⟨⟨y, n⟩, running', leads⟩ | ⟨o', written'⟩⟩ := sound.running_run running run
          · cases leads with
            | refl => exact ended S' n o sound' running' written
            | wait o' leads => exact ih o' y leads S' n sound' running'
          · exact ⟨S', o', .refl, written'⟩
        obtain ⟨S'', o', run', written'⟩ := finishes'
        exact ⟨S'', o', run.trans run', written'⟩

theorem finishes {S : System α} {a : Address} {e : Expr} {t : Thread Outcome}
    (sound : Sound client S) (running : S.cells a = some (.running e t)) : S.Finishes a :=
  finishes_of (fun _ sound' _ _ _ running' _ => sound'.finishes running') t.rest _ (.refl _) S t.made
    sound running
termination_by (a.root, e.size)
decreasing_by
  rename_i lower
  obtain older | ⟨k, rfl⟩ := lower
  -- what a task waits for was started earlier by the client or by the task itself
  · exact Prod.Lex.left _ _ older
  · obtain ⟨⟨o, settled⟩, -⟩ := sound.bears _ _ running
    obtain ⟨⟨o', settled'⟩, -⟩ := sound'.bears _ _ running'
    exact Prod.Lex.right _ (Activity.settled_size settled settled')

theorem exists_taskStep (sound : Sound client S) (running : S.cells a = some (.running e t)) :
    ∃ S', S.TaskStep S' := by
  obtain ⟨S', o, run, written⟩ := sound.finishes running
  obtain rfl | ⟨S₁, step, -⟩ := run.cases_head
  · simp [running] at written
  · exact ⟨S₁, step⟩

end Sound

namespace System

theorem reaches_of_tasks {S S' : System α} (run : Relation.ReflTransGen TaskStep S S') :
    S.Reaches S' :=
  Relation.ReflTransGen.mono (fun _ _ => .task) _ _ run

/-- Whatever a client does and in whichever order its tasks go on, while a task is running some task
can take a step, and tasks alone can bring it to its end. What is written to a cell stays, and it is
what every other order writes there: the outcome that is foretold by finishing each task when it is
started, which is that of the promise of its expression. -/
theorem futures_settle (client : Activity α) (S : System α) (reached : (initial client).Reaches S) :
    (∀ a e t, S.cells a = some (.running e t) → (∃ S', S.TaskStep S') ∧ S.Finishes a ∧
      client.settled a = some ⟨some e, e.destiny (client.older a)⟩ ∧
      ∃ p, (e.resolve (client.older a)).promise = .ok p ∧ p.outcome = e.destiny (client.older a)) ∧
    ∀ a o, S.cells a = some (.written o) →
      (∀ S', S.Reaches S' → S'.cells a = some (.written o)) ∧
      (∃ e, client.settled a = some ⟨e, o⟩) ∧
      ∀ S' o', (initial client).Reaches S' → S'.cells a = some (.written o') → o' = o := by
  have sound := Sound.of_reaches reached
  refine ⟨fun a e t running => ?_, fun a o written => ⟨fun S' run => sound.written_run written run,
    sound.bears a _ written, fun S' o' reached' written' => ?_⟩⟩
  · obtain ⟨⟨o, settled⟩, -⟩ := sound.bears a _ running
    obtain ⟨there, rfl⟩ := Activity.settled_spec settled
    obtain ⟨p, made, -⟩ := Expr.promise_eq
      (Expr.ground_resolve (client.older a) (Expr.ground_of_within there))
    exact ⟨sound.exists_taskStep running, sound.finishes running, settled, p, made,
      by rw [Expr.destiny, made]⟩
  · obtain ⟨e, settled⟩ := sound.bears a _ written
    obtain ⟨e', settled'⟩ := (Sound.of_reaches reached').bears a _ written'
    exact congrArg Made.outcome (Option.some.inj (settled'.symm.trans settled))

def copying : Activity (Except Fault Held) :=
  ExceptT.run do
    let x ← Expr.paddedProduct.launch
    liftM x.copy

theorem copying_settles : ∃ S : System (Except Fault Held), (initial copying).Reaches S ∧
    (∃ e t, S.cells ⟨0, [0]⟩ = some (.running e t)) ∧ ∃ S' o p, S.Reaches S' ∧
      S'.cells ⟨0, []⟩ = some (.written o) ∧ Expr.paddedProduct.promise = .ok p ∧ p.outcome = o := by
  have launched : (initial copying).Step _ := .client (.start rfl)
  have reached := (Relation.ReflTransGen.single launched).tail
    (.task (.act (a := ⟨0, []⟩) (t := ⟨Expr.paddedProduct.task, 0⟩) rfl (.start rfl)))
  refine ⟨_, reached, ⟨_, _, rfl⟩, ?_⟩
  obtain ⟨-, ⟨S', o, run, written⟩, settled, p, promised, outcome⟩ :=
    (futures_settle copying _ reached).1 ⟨0, []⟩ Expr.paddedProduct _ rfl
  obtain ⟨-, ⟨e, settled'⟩, -⟩ :=
    (futures_settle copying S' (reached.trans (reaches_of_tasks run))).2 ⟨0, []⟩ o written
  have same := Option.some.inj (settled.symm.trans settled')
  have kept : p.outcome = o := outcome.trans (congrArg Made.outcome same)
  exact ⟨S', o, p, reaches_of_tasks run, written, promised, kept⟩

end System

end LazyMatrix
