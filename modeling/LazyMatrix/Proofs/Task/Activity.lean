import LazyMatrix.Expr.Eval
import LazyMatrix.Proofs.Expr.Wildcards

/-! Activities, what a thread does between the points at which others can come in: it waits for a
cell, makes one with a task that is to write to it, or makes one that is written already. What an
activity comes to if every task is finished when it is started can be foretold without running any
other thread. -/

namespace LazyMatrix

abbrev Outcome := Except Error Dense

/-- A cell as an activity refers to it: one of those that futures in expressions hold, or one of
those that it made itself, in the order in which it made them. -/
inductive Ref where
  | shared (n : Nat)
  | own (n : Nat)

def Ref.number? : Ref → Option Nat
  | .shared n => some n
  | .own _ => none

inductive Activity (α : Type) where
  | done (a : α)
  | wait (cell : Ref) (next : Outcome → Activity α)
  | start (e : Expr) (next : Nat → Activity α)
  | hold (o : Outcome) (next : Nat → Activity α)

namespace Activity

variable {α β : Type}

def bind : Activity α → (α → Activity β) → Activity β
  | .done a, f => f a
  | .wait c next, f => .wait c fun o => (next o).bind f
  | .start e next, f => .start e fun n => (next n).bind f
  | .hold o next, f => .hold o fun n => (next n).bind f

instance : Monad Activity where
  pure := .done
  bind := bind

theorem bind_done (x : Activity α) : x.bind .done = x := by
  induction x with
  | done a => rfl
  | wait c next ih => exact congrArg (Activity.wait c) (funext ih)
  | start e next ih => exact congrArg (Activity.start e) (funext ih)
  | hold o next ih => exact congrArg (Activity.hold o) (funext ih)

theorem bind_bind {γ : Type} (x : Activity α) (f : α → Activity β) (g : β → Activity γ) :
    (x.bind f).bind g = x.bind fun a => (f a).bind g := by
  induction x with
  | done a => rfl
  | wait c next ih => exact congrArg (Activity.wait c) (funext ih)
  | start e next ih => exact congrArg (Activity.start e) (funext ih)
  | hold o next ih => exact congrArg (Activity.hold o) (funext ih)

instance : LawfulMonad Activity :=
  LawfulMonad.mk' Activity (fun x => bind_done x) (fun _ _ => rfl) (fun x f g => bind_bind x f g)

end Activity

/-- A cell that an activity made, what is evaluated for it if anything is, and what is written to
it. -/
structure Made where
  task : Option Expr
  outcome : Outcome

namespace Expr

/-- Every future of the expression has one of the first `n` cells, and there are no wildcards. -/
def within (n : Nat) : Expr → Bool
  | .leaf _ (.literal _) => true
  | .leaf _ (.future f) => f.cell < n
  | .leaf _ (.wildcard _) => false
  | .unary _ _ x => x.within n
  | .binary _ _ l r => l.within n && r.within n

/-- The expression over futures that have ended as it is said of their cells. What a future is said
to end in where it stands in the expression is not looked at. -/
def resolve (older : List Made) : Expr → Expr
  | .leaf h (.future f) =>
      .leaf h (.future { f with outcome := older[f.cell]?.elim f.outcome Made.outcome })
  | .leaf h x => .leaf h x
  | .unary h op x => .unary h op (x.resolve older)
  | .binary h op l r => .binary h op (l.resolve older) (r.resolve older)

def destiny (older : List Made) (e : Expr) : Outcome :=
  match (e.resolve older).promise with
  | .ok p => p.outcome
  | .error fault => .error (.background fault)

variable {n : Nat} {e : Expr}

theorem ground_of_within (h : e.within n = true) : e.Ground := by
  induction e with
  | leaf i x =>
    cases x with
    | literal | future => trivial
    | wildcard => cases h
  | unary i op x ih => exact ih h
  | binary i op l r ihl ihr =>
    obtain ⟨hl, hr⟩ := Bool.and_eq_true_iff.1 h
    exact ⟨ihl hl, ihr hr⟩

theorem within_mono {m : Nat} (le : n ≤ m) (h : e.within n = true) : e.within m = true := by
  induction e with
  | leaf i x =>
    cases x with
    | literal => rfl
    | future f =>
      have lt : f.cell < n := of_decide_eq_true h
      exact decide_eq_true (Nat.lt_of_lt_of_le lt le)
    | wildcard => cases h
  | unary i op x ih => exact ih h
  | binary i op l r ihl ihr =>
    obtain ⟨hl, hr⟩ := Bool.and_eq_true_iff.1 h
    exact Bool.and_eq_true_iff.2 ⟨ihl hl, ihr hr⟩

theorem resolve_shape (older : List Made) (e : Expr) : (e.resolve older).shape = e.shape := by
  induction e with
  | leaf i x => cases x <;> rfl
  | unary i op x ih => exact congrArg op.shape ih
  | binary i op l r ihl ihr => rw [resolve, shape_binary, shape_binary, ihl, ihr]

theorem ground_resolve (older : List Made) (h : e.Ground) : (e.resolve older).Ground := by
  induction e with
  | leaf i x =>
    cases x with
    | literal | future => trivial
    | wildcard => exact h.elim
  | unary i op x ih => exact ih h
  | binary i op l r ihl ihr => exact ⟨ihl h.1, ihr h.2⟩

end Expr

def Ref.find? (older own : List Made) : Ref → Option Made
  | .shared n => older[n]?
  | .own n => own[n]?

namespace Activity

variable {α β : Type} (view : List Made → List Made)

/-- What an activity comes to, and the cells it has made then, if a task is finished at the moment it
is started. An activity that refers to a cell that is not there comes to nothing. The cells shared
with others may depend on its own: for a client they are the same. -/
def foresee : Activity α → List Made → Option α × List Made
  | .done a, own => (some a, own)
  | .wait c next, own =>
      match c.find? (view own) own with
      | some m => (next m.outcome).foresee own
      | none => (none, own)
  | .start e next, own =>
      if e.within (view own).length then
        (next own.length).foresee (own ++ [⟨some e, e.destiny (view own)⟩])
      else (none, own)
  | .hold o next, own => (next own.length).foresee (own ++ [⟨none, o⟩])

variable {own : List Made}

theorem foresee_bind (x : Activity α) (f : α → Activity β) (own : List Made) :
    (x >>= f).foresee view own =
      match x.foresee view own with
      | (some a, own) => (f a).foresee view own
      | (none, own) => (none, own) := by
  change (x.bind f).foresee view own = _
  induction x generalizing own with
  | done a => rfl
  | wait c next ih =>
    rw [bind, foresee, foresee]
    cases c.find? (view own) own with
    | none => rfl
    | some m => exact ih m.outcome own
  | start e next ih =>
    rw [bind, foresee, foresee]
    split
    · exact ih own.length _
    · rfl
  | hold o next ih =>
    rw [bind, foresee, foresee]
    exact ih own.length _

theorem foresee_extends (x : Activity α) (own : List Made) : own <+: (x.foresee view own).2 := by
  induction x generalizing own with
  | done a => exact List.prefix_rfl
  | wait c next ih =>
    rw [foresee]
    split
    · exact ih _ own
    · exact List.prefix_rfl
  | start e next ih =>
    rw [foresee]
    split
    · exact (List.prefix_append _ _).trans (ih _ _)
    · exact List.prefix_rfl
  | hold o next ih => exact (List.prefix_append _ _).trans (ih _ _)

theorem found_of_foresee {c : Ref} {next : Outcome → Activity α} {a : α} {made : List Made}
    (h : (wait c next).foresee view own = (some a, made)) :
    ∃ m, c.find? (view own) own = some m := by
  rw [foresee] at h
  split at h
  · next m found => exact ⟨m, found⟩
  · cases h

theorem within_of_foresee {e : Expr} {next : Nat → Activity α} {a : α} {made : List Made}
    (h : (start e next).foresee view own = (some a, made)) :
    e.within (view own).length = true := by
  rw [foresee] at h
  split at h
  · next there => exact there
  · cases h

def Foretold (view : List Made → List Made) (made : List Made) (n : Nat) : Prop :=
  ∀ i e o, n ≤ i → made[i]? = some ⟨some e, o⟩ →
    e.within (view (made.take i)).length = true ∧ o = e.destiny (view (made.take i))

theorem foretold_append {made : List Made} {m : Made} (le : own ++ [m] <+: made)
    (first : ∀ e o, m = ⟨some e, o⟩ →
      e.within (view own).length = true ∧ o = e.destiny (view own))
    (rest : Foretold view made (own ++ [m]).length) : Foretold view made own.length := by
  intro i e o hi found
  obtain rfl | later := Nat.eq_or_lt_of_le hi
  · obtain ⟨after, rfl⟩ := le
    rw [List.append_assoc, List.getElem?_append_right (Nat.le_refl _), Nat.sub_self] at found
    rw [List.append_assoc, List.take_left]
    exact first e o (Option.some.inj found)
  · exact rest i e o (by simpa using Nat.succ_le_of_lt later) found

theorem foretold_foresee (x : Activity α) (own : List Made) :
    Foretold view (x.foresee view own).2 own.length := by
  have nothing (made : List Made) : Foretold view made made.length := by
    intro i e o hi found
    have := (List.getElem?_eq_some_iff.1 found).1
    omega
  induction x generalizing own with
  | done a => exact nothing own
  | wait c next ih =>
    rw [foresee]
    split
    · exact ih _ own
    · exact nothing own
  | start e next ih =>
    rw [foresee]
    split
    · next there =>
      refine foretold_append view (foresee_extends _ _ _) ?_ (ih _ _)
      rintro _ _ ⟨⟩
      exact ⟨there, rfl⟩
    · exact nothing own
  | hold o next ih =>
    refine foretold_append view (foresee_extends _ _ _) ?_ (ih _ _)
    rintro _ _ ⟨⟩

end Activity

end LazyMatrix
