import LazyMatrix.Proofs.Expr.Nodes

/-! Reasoning about what is built in a session. A triple begins with the nodes that exist; whatever
is built leaves them in existence, and its postcondition is about the nodes that exist then. An
attempt promises nothing about its result if it fails, but what it has built exists all the same. -/

namespace LazyMatrix

variable {α β ε : Type}

namespace Session

def run (s : Session) (x : Build α) : α × Session := StateT.run x s

variable (s : Session)

@[simp] theorem run_pure (a : α) : s.run (pure a) = (a, s) := rfl

@[simp] theorem run_bind (x : Build α) (f : α → Build β) :
    s.run (x >>= f) = (s.run x).2.run (f (s.run x).1) := rfl

@[simp] theorem run_attempt_lift (x : Build α) :
    s.run (liftM x : Attempt ε α).run = (.ok (s.run x).1, (s.run x).2) := rfl

variable {s} {s' : Session} {x : Attempt ε α}

theorem run_bind_ok {a : α} (f : α → Attempt ε β) (ran : s.run x.run = (.ok a, s')) :
    s.run (x >>= f).run = s'.run (f a).run := by
  rw [ExceptT.run_bind, run_bind, ran]

theorem run_bind_error {e : ε} (f : α → Attempt ε β) (ran : (s.run x.run).1 = .error e) :
    (s.run (x >>= f).run).1 = .error e := by
  rw [ExceptT.run_bind, run_bind, ran]
  rfl

theorem exists_of_run_bind {f : α → Attempt ε β} {b : β} {s'' : Session}
    (ran : s.run (x >>= f).run = (.ok b, s'')) :
    ∃ a s', s.run x.run = (.ok a, s') ∧ s'.run (f a).run = (.ok b, s'') := by
  rw [ExceptT.run_bind, run_bind] at ran
  cases first : s.run x.run with
  | mk result s' =>
    rw [first] at ran
    cases result with
    | ok a => exact ⟨a, s', rfl, ran⟩
    | error e => cases ran

end Session

/-- Building `x` when `nodes` exist comes to something with `Q`. -/
def Builds (nodes : Set Expr) (x : Build α) (Q : Set Expr → α → Prop) : Prop :=
  ∀ s : Session, Extant nodes s.next →
    ∃ more, nodes ⊆ more ∧ Extant more (s.run x).2.next ∧ Q more (s.run x).1

/-- Attempting `x` when `nodes` exist comes to something with `Q`, if it succeeds. -/
def Attempts (nodes : Set Expr) (x : Attempt ε α) (Q : Set Expr → α → Prop) : Prop :=
  Builds nodes x.run fun more result => ∀ a, result = .ok a → Q more a

variable {nodes : Set Expr}

section Builds

variable {x : Build α} {f : α → Build β} {P Q : Set Expr → α → Prop} {R : Set Expr → β → Prop}

theorem Builds.of_extant (h : (∃ next, Extant nodes next) → Builds nodes x Q) : Builds nodes x Q :=
  fun s extant => h ⟨s.next, extant⟩ s extant

theorem builds_pure {a : α} (h : Q nodes a) : Builds nodes (pure a) Q :=
  fun _ extant => ⟨nodes, subset_rfl, extant, h⟩

theorem builds_bind (hx : Builds nodes x P)
    (hf : ∀ more a, nodes ⊆ more → P more a → Builds more (f a) R) : Builds nodes (x >>= f) R := by
  intro s extant
  obtain ⟨more, le, extant, ha⟩ := hx s extant
  obtain ⟨most, le', extant, hb⟩ := hf more _ le ha _ extant
  exact ⟨most, le.trans le', extant, hb⟩

theorem Builds.mono (hx : Builds nodes x P) (h : ∀ more a, nodes ⊆ more → P more a → Q more a) :
    Builds nodes x Q := by
  intro s extant
  obtain ⟨more, le, extant, ha⟩ := hx s extant
  exact ⟨more, le, extant, h more _ le ha⟩

theorem builds_note (e : Event) : Builds nodes (Session.note e) fun _ _ => True :=
  fun _ extant => ⟨nodes, subset_rfl, extant, trivial⟩

end Builds

section Attempts

variable {x : Attempt ε α} {f : α → Attempt ε β} {P Q : Set Expr → α → Prop}
  {R : Set Expr → β → Prop}

theorem Attempts.of_extant (h : (∃ next, Extant nodes next) → Attempts nodes x Q) :
    Attempts nodes x Q :=
  Builds.of_extant h

theorem attempts_pure {a : α} (h : Q nodes a) : Attempts nodes (pure a : Attempt ε α) Q :=
  builds_pure fun _ hb => Except.ok.inj hb ▸ h

theorem attempts_throw (e : ε) : Attempts nodes (throw e : Attempt ε α) Q :=
  builds_pure fun _ h => nomatch h

theorem attempts_lift {b : Build α} (h : Builds nodes b Q) :
    Attempts nodes (liftM b : Attempt ε α) Q := by
  intro s extant
  obtain ⟨more, le, extant, ha⟩ := h s extant
  exact ⟨more, le, extant, fun a same => Except.ok.inj same ▸ ha⟩

theorem attempts_bind (hx : Attempts nodes x P)
    (hf : ∀ more a, nodes ⊆ more → P more a → Attempts more (f a) R) :
    Attempts nodes (x >>= f) R := by
  rw [Attempts, ExceptT.run_bind]
  refine builds_bind hx fun more result le ha => ?_
  cases result with
  | ok a => exact hf more a le (ha a rfl)
  | error e => exact builds_pure fun _ h => nomatch h

theorem Attempts.mono (hx : Attempts nodes x P)
    (h : ∀ more a, nodes ⊆ more → P more a → Q more a) : Attempts nodes x Q :=
  Builds.mono hx fun more _ le ha a same => h more a le (ha a same)

theorem Attempts.and {P : α → Prop} (h : Attempts nodes x Q) (h' : Attempts nodes x fun _ => P) :
    Attempts nodes x fun more a => Q more a ∧ P a := by
  intro s extant
  obtain ⟨more, le, extant', ha⟩ := h s extant
  obtain ⟨_, -, -, ha'⟩ := h' s extant
  exact ⟨more, le, extant', fun a ok => ⟨ha a ok, ha' a ok⟩⟩

end Attempts

def Succeeds (x : Attempt ε α) : Prop := ∀ s : Session, ∃ a, (s.run x.run).1 = .ok a

theorem succeeds_pure (a : α) : Succeeds (pure a : Attempt ε α) := fun _ => ⟨a, rfl⟩

theorem succeeds_lift (x : Build α) : Succeeds (liftM x : Attempt ε α) :=
  fun s => ⟨(s.run x).1, rfl⟩

theorem succeeds_bind {x : Attempt ε α} {f : α → Attempt ε β} (hx : Succeeds x)
    (hf : ∀ a, Succeeds (f a)) : Succeeds (x >>= f) := by
  intro s
  obtain ⟨a, ha⟩ := hx s
  rw [ExceptT.run_bind, Session.run_bind, ha]
  exact hf a _

def Fails (x : Attempt ε α) : Prop := ∀ s : Session, ∃ e, (s.run x.run).1 = .error e

theorem fails_throw (e : ε) : Fails (throw e : Attempt ε α) := fun _ => ⟨e, rfl⟩

theorem Fails.bind {x : Attempt ε α} (h : Fails x) (f : α → Attempt ε β) : Fails (x >>= f) := by
  intro s
  obtain ⟨e, failed⟩ := h s
  rw [ExceptT.run_bind, Session.run_bind, failed]
  exact ⟨e, rfl⟩

theorem fails_bind {x : Attempt ε α} {f : α → Attempt ε β} (h : ∀ a, Fails (f a)) : Fails (x >>= f) := by
  intro s
  rw [ExceptT.run_bind, Session.run_bind]
  cases (s.run x.run).1 with
  | ok a => exact h a _
  | error e => exact ⟨e, rfl⟩

namespace Expr

theorem builds_newUnary (op : UnaryOp) {x : Expr} (hx : x ∈ nodes) :
    Builds nodes (newUnary op x) fun more y => y ∈ more ∧ ∃ h, y = .unary h op x := by
  intro s extant
  refine ⟨_, Set.subset_insert _ _, extant.insert (x := .unary s.next op x) rfl ?_,
    Set.mem_insert _ _, s.next, rfl⟩
  simpa [operands] using hx

theorem builds_newBinary (op : BinaryOp) {l r : Expr} (hl : l ∈ nodes) (hr : r ∈ nodes) :
    Builds nodes (newBinary op l r) fun more y => y ∈ more ∧ ∃ h, y = .binary h op l r := by
  intro s extant
  refine ⟨_, Set.subset_insert _ _, extant.insert (x := .binary s.next op l r) rfl ?_,
    Set.mem_insert _ _, s.next, rfl⟩
  simpa [operands] using ⟨hl, hr⟩

end Expr

end LazyMatrix
