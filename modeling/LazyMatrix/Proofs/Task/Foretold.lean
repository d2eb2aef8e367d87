import LazyMatrix.Proofs.Task.System

/-! Every thread comes to what was foretold of it, whatever the others do in between. A cell that is
made stands where it was foretold, so what a thread reads is what it was expected to read. -/

namespace LazyMatrix

open Function (update update_apply)

namespace Address

variable {a b : Address} {m n : Nat}

@[simp] theorem child_eq_child : a.child m = b.child n ↔ a = b ∧ m = n := by
  cases a
  cases b
  simp only [child, mk.injEq, List.cons.injEq]
  rw [and_comm (a := m = n), and_assoc]

theorem child_ne_root : a.child m ≠ ⟨n, []⟩ := fun h => nomatch congrArg path h

end Address

inductive Begun : Made → Cell → Prop where
  | running (e : Expr) (o : Outcome) : Begun ⟨some e, o⟩ (.running e ⟨e.task, 0⟩)
  | written (o : Outcome) : Begun ⟨none, o⟩ (.written o)

/-- There is no cell of a task of which there is no cell, and while a task is running the cells that
it made are there and no others. -/
structure Grown (cells : Cells) : Prop where
  parent : ∀ a n, cells (a.child n) ≠ none → cells a ≠ none
  child : ∀ a e t, cells a = some (.running e t) → ∀ n, cells (a.child n) ≠ none ↔ n < t.made

section

variable {cells : Cells} {a b : Address} {c : Cell} {e : Expr} {t t' : Thread Outcome} {m : Made}

theorem update_ne_none : update cells a (some c) b ≠ none ↔ b = a ∨ cells b ≠ none := by
  rw [update_apply]
  split
  · next same => simp [same]
  · next other => simp [other]

theorem update_ne_none_iff (there : cells a ≠ none) :
    update cells a (some c) b ≠ none ↔ cells b ≠ none := by
  rw [update_ne_none]
  exact or_iff_right_of_imp fun same => same ▸ there

theorem forall_update {P : Address → Cell → Prop} (h : ∀ a c, cells a = some c → P a c)
    (hc : P b c) : ∀ a c', update cells b (some c) a = some c' → P a c' := by
  intro a c' found
  rw [update_apply] at found
  split at found
  · next eq =>
    subst eq
    exact Option.some.inj found ▸ hc
  · exact h a c' found

theorem Begun.made_eq_zero (begun : Begun m (.running e t)) : t.made = 0 := by
  cases begun
  rfl

theorem Grown.root_ne_none (h : Grown cells) (there : cells a ≠ none) : cells ⟨a.root, []⟩ ≠ none := by
  obtain ⟨root, path⟩ := a
  induction path with
  | nil => exact there
  | cons n path ih => exact ih (h.parent ⟨root, path⟩ n there)

theorem Grown.update_running (h : Grown cells) (running : cells a = some (.running e t))
    (same : ∀ e' t', c = .running e' t' → t'.made = t.made) : Grown (update cells a (some c)) := by
  have there : cells a ≠ none := by simp [running]
  refine ⟨fun b n => ?_, fun b e' t' found n => ?_⟩
  · rw [update_ne_none_iff there, update_ne_none_iff there]
    exact h.parent b n
  · rw [update_ne_none_iff there]
    rw [update_apply] at found
    split at found
    · next eq =>
      subst eq
      rw [same e' t' (Option.some.inj found)]
      exact h.child _ e t running n
    · exact h.child b e' t' found n

theorem Grown.put_root (h : Grown cells) {n : Nat} (free : cells ⟨n, []⟩ = none)
    (begun : Begun m c) : Grown (update cells ⟨n, []⟩ (some c)) := by
  have present (b : Address) (k : Nat) :
      update cells ⟨n, []⟩ (some c) (b.child k) ≠ none ↔ cells (b.child k) ≠ none := by
    rw [update_ne_none]
    exact or_iff_right Address.child_ne_root
  refine ⟨fun b k => ?_, fun b e t found k => ?_⟩
  · rw [present, update_ne_none]
    exact fun there => .inr (h.parent b k there)
  · rw [present]
    rw [update_apply] at found
    split at found
    · next eq =>
      obtain rfl := Option.some.inj found
      rw [begun.made_eq_zero]
      exact ⟨fun there => absurd free (eq ▸ h.parent b k there), fun lt => absurd lt (by omega)⟩
    · exact h.child b e t found k

theorem Grown.child_eq_none (h : Grown cells) (running : cells a = some (.running e t)) :
    cells (a.child t.made) = none := by
  by_contra there
  exact absurd ((h.child a e t running t.made).1 there) (by omega)

theorem Grown.put_child (h : Grown cells) (running : cells a = some (.running e t))
    (begun : Begun m c) (more : t'.made = t.made + 1) :
    Grown (update (update cells (a.child t.made) (some c)) a (some (.running e t'))) := by
  have free := h.child_eq_none running
  have there : cells a ≠ none := by simp [running]
  have present (b : Address) :
      update (update cells (a.child t.made) (some c)) a (some (.running e t')) b ≠ none ↔
        b = a.child t.made ∨ cells b ≠ none := by
    rw [update_ne_none_iff (update_ne_none.2 (.inr there)), update_ne_none]
  refine ⟨fun b k => ?_, fun b e' s found k => ?_⟩
  · rw [present, present, Address.child_eq_child]
    rintro (⟨rfl, -⟩ | mem)
    · exact .inr there
    · exact .inr (h.parent b k mem)
  · rw [present, Address.child_eq_child]
    rw [update_apply, update_apply] at found
    split at found
    · next eq =>
      subst eq
      obtain ⟨rfl, rfl⟩ := Cell.running.inj (Option.some.inj found)
      simp only [true_and, h.child _ e t running k, more]
      omega
    · next other =>
      rw [or_iff_right fun eq => other eq.1]
      split at found
      · next eq =>
        obtain rfl := Option.some.inj found
        rw [begun.made_eq_zero]
        exact ⟨fun mem => absurd free (eq ▸ h.parent b k mem), fun lt => absurd lt (by omega)⟩
      · exact h.child b e' s found k

end

variable {α : Type}

theorem Acts.foretold {scope : Ref → Address} {there : Nat} {cells cells' : Cells} {t t' : Thread α}
    (acts : Acts scope there cells t t' cells') (view : List Made → List Made) {own : List Made}
    (length : own.length = t.made)
    (reads : ∀ c next o, t.rest = .wait c next → cells (scope c) = some (.written o) →
      ∃ m, c.find? (view own) own = some m ∧ m.outcome = o)
    (known : ∀ e next, t.rest = .start e next → e.within there = true →
      e.within (view own).length = true) :
    ∃ own', own'.length = t'.made ∧ t'.rest.foresee view own' = t.rest.foresee view own ∧
      (own' = own ∧ cells' = cells ∨ ∃ m c, own' = own ++ [m] ∧ Begun m c ∧
        cells' = update cells (scope (.own t.made)) (some c)) := by
  cases acts with
  | @wait c next n o ended =>
    obtain ⟨m, found, rfl⟩ := reads c next o rfl ended
    exact ⟨own, length, by rw [Activity.foresee, found], .inl ⟨rfl, rfl⟩⟩
  | @start e next n within =>
    obtain rfl : own.length = n := length
    have within' := known e next rfl within
    refine ⟨own ++ [⟨some e, e.destiny (view own)⟩], List.length_append, ?_,
      .inr ⟨_, _, rfl, .running _ _, rfl⟩⟩
    rw [Activity.foresee, if_pos within']
  | @hold o next n =>
    obtain rfl : own.length = n := length
    exact ⟨own ++ [⟨none, o⟩], List.length_append, rfl, .inr ⟨_, _, rfl, .written _, rfl⟩⟩

namespace Activity

/-- What a task has left to do leads to the end foretold of it. -/
def Tracks (client : Activity α) (a : Address) (e : Expr) (t : Thread Outcome) : Prop :=
  ∃ own, own.length = t.made ∧ t.rest.foresee (fun _ => client.older a) own =
    (some (e.destiny (client.older a)), e.children (client.older a))

def Bears (client : Activity α) (a : Address) : Cell → Prop
  | .running e t => (∃ o, client.settled a = some ⟨some e, o⟩) ∧ client.Tracks a e t
  | .written o => ∃ e, client.settled a = some ⟨e, o⟩

variable {client : Activity α} {a : Address} {m : Made} {c : Cell}

theorem bears_of_begun (h : client.settled a = some m) (begun : Begun m c) : client.Bears a c := by
  cases begun with
  | running e o =>
    exact ⟨⟨o, h⟩, [], rfl, (e.task_foresee (settled_spec h).1).1⟩
  | written o => exact ⟨none, h⟩

end Activity

/-- What holds of every state that a client's futures come to. -/
structure Sound (client : Activity α) (S : System α) : Prop where
  foreseen : ∃ own, own.length = S.client.made ∧
    S.client.rest.foresee id own = client.foresee id []
  bears : ∀ a c, S.cells a = some c → client.Bears a c
  roots : ∀ n, S.cells ⟨n, []⟩ ≠ none ↔ n < S.client.made
  grown : Grown S.cells

namespace Sound

variable {client : Activity α} {S S' : System α} {a : Address} {e : Expr} {t t' : Thread Outcome}

theorem initial (client : Activity α) : Sound client (System.initial client) where
  foreseen := ⟨[], rfl, rfl⟩
  bears _ _ found := nomatch found
  roots n := by simp [System.initial]
  grown := ⟨fun _ _ there => absurd rfl there, fun _ _ _ found => nomatch found⟩

theorem free_root (sound : Sound client S) : S.cells ⟨S.client.made, []⟩ = none := by
  by_contra there
  exact absurd ((sound.roots _).1 there) (by omega)

theorem client_reads (sound : Sound client S) {own : List Made} (length : own.length = S.client.made)
    (planned : own <+: client.plan) {c : Ref} {o : Outcome}
    (ended : S.cells c.ofClient = some (.written o)) :
    ∃ m, c.find? own own = some m ∧ m.outcome = o := by
  have at_root : ∃ n, c.ofClient = ⟨n, []⟩ ∧ c.find? own own = own[n]? := by
    cases c <;> exact ⟨_, rfl, rfl⟩
  obtain ⟨n, address, find⟩ := at_root
  rw [address] at ended
  obtain ⟨e, settled⟩ := sound.bears _ _ ended
  have lt : n < own.length := by
    rw [length]
    exact (sound.roots n).1 (by simp [ended])
  obtain ⟨new, plan⟩ := planned
  have same : client.plan[n]? = own[n]? := plan ▸ List.getElem?_append_left lt
  exact ⟨⟨e, o⟩, by rw [find, ← same]; exact settled, rfl⟩

theorem client_step (sound : Sound client S) {t : Thread α} {cells : Cells}
    (acts : Acts Ref.ofClient S.client.made S.cells S.client t cells) :
    Sound client ⟨t, cells⟩ := by
  obtain ⟨own, length, told⟩ := sound.foreseen
  have planned : own <+: client.plan := by
    rw [Activity.plan, ← told]
    exact Activity.foresee_extends _ _ _
  obtain ⟨own', length', same, made⟩ := acts.foretold id length
    (fun c _ o _ ended => sound.client_reads length planned ended)
    (fun e _ _ within => by rwa [id, length])
  have told' := same.trans told
  obtain ⟨rfl, rfl⟩ | ⟨m, c, rfl, begun, rfl⟩ := made
  · have still : S.client.made = t.made := length.symm.trans length'
    exact ⟨⟨own', length', told'⟩, sound.bears, still ▸ sound.roots, sound.grown⟩
  · have settled : client.settled ⟨S.client.made, []⟩ = some m := by
      have planned' : own ++ [m] <+: client.plan := by
        rw [Activity.plan, ← told']
        exact Activity.foresee_extends _ _ _
      obtain ⟨new, plan⟩ := planned'
      change client.plan[S.client.made]? = some m
      rw [← plan, ← length, List.append_assoc, List.getElem?_append_right (Nat.le_refl _),
        Nat.sub_self]
      rfl
    have more : t.made = S.client.made + 1 := by
      rw [← length', List.length_append, length, List.length_singleton]
    refine ⟨⟨_, length', told'⟩, forall_update sound.bears (Activity.bears_of_begun settled begun),
      fun n => ?_, sound.grown.put_root sound.free_root begun⟩
    change update S.cells ⟨S.client.made, []⟩ (some c) ⟨n, []⟩ ≠ none ↔ n < t.made
    rw [update_ne_none, sound.roots, more, Address.mk.injEq, and_iff_left rfl]
    omega

theorem settled_of_find? {own : List Made}
    (planned : own <+: e.children (client.older a)) {o : Outcome}
    (settled : client.settled a = some ⟨some e, o⟩) {c : Ref} {m : Made}
    (found : c.find? (client.older a) own = some m) : client.settled (c.ofTask a) = some m := by
  cases c with
  | shared n =>
    have found : (client.plan.take a.root)[n]? = some m := found
    rw [List.getElem?_take] at found
    split at found
    · exact found
    · cases found
  | own n =>
    rw [Ref.ofTask, Activity.settled_child settled]
    obtain ⟨new, all⟩ := planned
    rw [← all]
    exact (List.getElem?_append_left (List.getElem?_eq_some_iff.1 found).1).trans found

theorem task_step (sound : Sound client S) (step : S.TaskStep S') : Sound client S' := by
  cases step with
  | @finish a e o n running =>
    obtain ⟨⟨o', settled⟩, own, -, told⟩ := sound.bears _ _ running
    have ends : o' = o := by
      rw [(Activity.settled_spec settled).2]
      exact (Option.some.inj (Prod.mk.inj told).1).symm
    subst ends
    have there : S.cells a ≠ none := by simp [running]
    exact ⟨sound.foreseen, forall_update sound.bears ⟨some e, settled⟩,
      fun n => (update_ne_none_iff there).trans (sound.roots n),
      sound.grown.update_running running fun _ _ same => nomatch same⟩
  | @act a e t t' cells running acts =>
    obtain ⟨⟨o, settled⟩, own, length, told⟩ := sound.bears _ _ running
    have there : S.cells a ≠ none := by simp [running]
    have planned : own <+: e.children (client.older a) := by
      have le := Activity.foresee_extends (fun _ => client.older a) t.rest own
      rwa [told] at le
    have reads (c : Ref) (next : Outcome → Activity Outcome) (o' : Outcome)
        (rest : t.rest = .wait c next) (ended : S.cells (c.ofTask a) = some (.written o')) :
        ∃ m, c.find? (client.older a) own = some m ∧ m.outcome = o' := by
      rw [rest] at told
      obtain ⟨m, found⟩ := Activity.found_of_foresee (fun _ => client.older a) told
      obtain ⟨x, settled'⟩ := sound.bears _ _ ended
      have same := (settled_of_find? planned settled found).symm.trans settled'
      exact ⟨m, found, by rw [Option.some.inj same]⟩
    have known (x : Expr) (next : Nat → Activity Outcome) (rest : t.rest = .start x next)
        (_ : x.within S.client.made = true) : x.within (client.older a).length = true := by
      rw [rest] at told
      exact Activity.within_of_foresee (fun _ => client.older a) told
    obtain ⟨own', length', same, made⟩ :=
      acts.foretold (fun _ => client.older a) length reads known
    have told' := same.trans told
    have bears : client.Bears a (.running e t') := ⟨⟨o, settled⟩, own', length', told'⟩
    obtain ⟨rfl, rfl⟩ | ⟨m, c, rfl, begun, rfl⟩ := made
    · have still : t.made = t'.made := length.symm.trans length'
      refine ⟨sound.foreseen, forall_update sound.bears bears,
        fun n => (update_ne_none_iff there).trans (sound.roots n),
        sound.grown.update_running running ?_⟩
      rintro _ _ ⟨⟩
      exact still.symm
    · have settled' : client.settled (a.child t.made) = some m := by
        have le := Activity.foresee_extends (fun _ => client.older a) t'.rest (own ++ [m])
        rw [told'] at le
        have found : (Ref.own own.length).find? (client.older a) (own ++ [m]) = some m :=
          List.getElem?_concat_length
        exact length ▸ settled_of_find? le settled found
      have more : t'.made = t.made + 1 := by
        rw [← length', List.length_append, length, List.length_singleton]
      refine ⟨sound.foreseen,
        forall_update (forall_update sound.bears (Activity.bears_of_begun settled' begun)) bears,
        fun n => ?_, sound.grown.put_child running begun more⟩
      refine (update_ne_none_iff (update_ne_none.2 (.inr there))).trans ?_
      rw [update_ne_none]
      exact (or_iff_right Address.child_ne_root.symm).trans (sound.roots n)

theorem step (sound : Sound client S) (h : S.Step S') : Sound client S' := by
  cases h with
  | client acts => exact sound.client_step acts
  | task h => exact sound.task_step h

theorem of_reaches (h : System.Reaches (System.initial client) S) : Sound client S := by
  induction h with
  | refl => exact initial client
  | tail _ h ih => exact ih.step h

end Sound

end LazyMatrix
