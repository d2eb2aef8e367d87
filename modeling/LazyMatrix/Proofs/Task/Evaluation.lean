import LazyMatrix.Proofs.Expr.Denotation
import LazyMatrix.Proofs.Task.Activity

/-! Evaluation as an activity. Nodes marked for the background become tasks, and a value is waited
for where it is read and not before. With tasks finished when they are started it comes to what
evaluation comes to over futures that have ended. -/

namespace LazyMatrix

inductive Held where
  | ready (d : Dense)
  | pending (shape : Shape) (cell : Ref)

namespace Activity

variable {α ε : Type}

def give (x : Except ε α) : ExceptT ε Activity α := ExceptT.mk (pure x)

def promise (shape : Shape) (cell : Ref) : Activity Promise := .wait cell fun o => .done ⟨shape, o⟩

end Activity

namespace Held

def literal : Held → Activity Literal
  | .ready d => return .ready d
  | .pending shape cell =>
      return .pending { ← Activity.promise shape cell with cell := cell.number? }

def read {α : Type} (f : Literal → Except Fault α) (x : Held) : ExceptT Fault Activity α :=
  ExceptT.mk do return f (← x.literal)

def copy : Held → Activity Held
  | .ready d => return .ready d
  | .pending shape cell => do
      let p ← Activity.promise shape cell
      let shape := match p.outcome with
        | .ok d => d.shape
        | .error _ => shape
      .hold p.outcome fun n => .done (.pending shape (.own n))

end Held

namespace Expr

def launch (e : Expr) : ExceptT Fault Activity Held :=
  match e.firstWildcard? with
  | some w => throw (.wildcard .evaluate w)
  | none => ExceptT.mk (.start e fun n => .done (.ok (.pending e.shape (.own n))))

def evaluate : Expr → ExceptT Fault Activity Held
  | .leaf _ (.literal d) => return .ready d
  | .leaf _ (.future f) => return .pending f.shape (.shared f.cell)
  | .leaf _ (.wildcard w) => throw (.wildcard .evaluate w)
  | .unary _ (.scale k) x => do
      let d ← (← x.evaluate).read Literal.dense
      return .ready (← Activity.give (d.map (· * k)))
  | .unary _ .transpose x => do
      let d ← (← x.evaluate).read Literal.dense
      return .ready (← Activity.give d.transpose)
  | .unary _ .async x => x.launch
  | .binary _ (.elementwise f) l r => do
      let left ← l.evaluate
      let right ← r.evaluate
      let right ← right.read Literal.intoArray
      let left ← left.read Literal.intoArray
      return .ready (Dense.compact l.shape (Dense.overlay f.apply left right))
  | .binary _ .product l r => do
      let left ← l.evaluate
      let right ← r.evaluate
      let left ← left.read Literal.dense
      let right ← right.read Literal.dense
      return .ready (← Activity.give (left.gemm right))

def judging : Expr → ExceptT (Stop Error) Activity Unit
  | .leaf _ (.future f) => ExceptT.mk do
      let p ← Activity.promise f.shape (.shared f.cell)
      return p.validate.mapError .error
  | .leaf _ x => Activity.give x.validate
  | .unary _ _ x => x.judging
  | .binary _ op l r => do
      l.judging
      r.judging
      Activity.give ((op.check l.shape r.shape).mapError .error)

def evaluateToDense (e : Expr) : ExceptT Fault Activity Dense := do
  (← e.evaluate).read Literal.dense

/-- What a task does for an expression: it validates it and evaluates it, and an error and a fault
are both written to its cell. -/
def task (e : Expr) : Activity Outcome := do
  match ← e.judging.run with
  | .error stop => return .error stop.toError
  | .ok () => return (← e.evaluateToDense.run).mapError .background

end Expr

def Smaller (bound : Nat) (made : List Made) : Prop :=
  ∀ m ∈ made, ∀ e, m.task = some e → e.size < bound

/-- The activity comes to what `y` is, with `P` of the results and of the cells that it has made then.
What it starts on the way is smaller than the bound. -/
def Mirrors {α β ε : Type} (older : List Made) (bound : Nat) (own : List Made)
    (x : ExceptT ε Activity α) (y : Except ε β) (P : List Made → α → β → Prop) : Prop :=
  ∃ r new, x.run.foresee (fun _ => older) own = (some r, own ++ new) ∧ Smaller bound new ∧
    Concord Eq (P (own ++ new)) r y

section

variable {α β γ δ ε : Type} {older own : List Made} {bound : Nat} {P : List Made → α → β → Prop}
  {Q : List Made → γ → δ → Prop}

theorem mirrors_of_foresee {x : ExceptT ε Activity α} {y : Except ε β} {r : Except ε α}
    (h : x.run.foresee (fun _ => older) own = (some r, own)) (rel : Concord Eq (P own) r y) :
    Mirrors older bound own x y P :=
  ⟨r, [], by rw [h, List.append_nil], by simp [Smaller], by rwa [List.append_nil]⟩

theorem mirrors_pure {a : α} {b : β} (h : P own a b) :
    Mirrors older bound own (pure a : ExceptT ε Activity α) (.ok b) P :=
  mirrors_of_foresee rfl (.ok h)

theorem mirrors_give (x : Except ε α) :
    Mirrors older bound own (Activity.give x) x fun _ => Eq :=
  mirrors_of_foresee rfl (concord_self (fun _ => rfl) x)

theorem mirrors_bind {x : ExceptT ε Activity α} {y : Except ε β} {f : α → ExceptT ε Activity γ}
    {g : β → Except ε δ} (hx : Mirrors older bound own x y P)
    (hf : ∀ own' a b, own <+: own' → P own' a b → Mirrors older bound own' (f a) (g b) Q) :
    Mirrors older bound own (x >>= f) (y >>= g) Q := by
  obtain ⟨r, new, ran, small, rel⟩ := hx
  cases rel with
  | error same =>
    refine ⟨_, new, ?_, small, .error same⟩
    rw [ExceptT.run_bind, Activity.foresee_bind, ran]
    rfl
  | ok rel =>
    obtain ⟨r', new', ran', small', rel'⟩ := hf _ _ _ (List.prefix_append own new) rel
    rw [List.append_assoc] at ran' rel'
    refine ⟨r', new ++ new', ?_, ?_, rel'⟩
    · rw [ExceptT.run_bind, Activity.foresee_bind, ran]
      exact ran'
    · intro m hm
      exact (List.mem_append.1 hm).elim (small m) (small' m)

end

/-- The value held is this literal, once its cell is written to. -/
inductive Stands (older own : List Made) : Held → Literal → Prop where
  | ready (d : Dense) : Stands older own (.ready d) (.ready d)
  | pending {cell : Ref} {m : Made} {shape : Shape} {outcome : Outcome}
      (found : cell.find? older own = some m) (same : m.outcome = outcome) :
      Stands older own (.pending shape cell) (.pending ⟨⟨shape, outcome⟩, cell.number?⟩)

section

variable {older own : List Made} {bound : Nat} {x : Held} {lit : Literal}

theorem Ref.find?_append {c : Ref} {own' : List Made} {m : Made} (le : own <+: own')
    (found : c.find? older own = some m) : c.find? older own' = some m := by
  cases c with
  | shared n => exact found
  | own n =>
    obtain ⟨new, rfl⟩ := le
    exact (List.getElem?_append_left (List.getElem?_eq_some_iff.1 found).1).trans found

theorem Stands.mono {own' : List Made} (h : Stands older own x lit) (le : own <+: own') :
    Stands older own' x lit := by
  cases h with
  | ready d => exact .ready d
  | pending found same => exact .pending (Ref.find?_append le found) same

theorem Stands.literal_eq (h : Stands older own x lit) :
    x.literal.foresee (fun _ => older) own = (some lit, own) := by
  cases h with
  | ready d => rfl
  | pending found same =>
    subst same
    rw [Held.literal, Activity.foresee_bind, Activity.promise, Activity.foresee, found]
    rfl

theorem Stands.read {α : Type} (h : Stands older own x lit) (f : Literal → Except Fault α) :
    Mirrors older bound own (x.read f) (f lit) fun _ => Eq := by
  refine mirrors_of_foresee ?_ (concord_self (fun _ => rfl) (f lit))
  rw [Held.read, ExceptT.run_mk, Activity.foresee_bind, h.literal_eq]
  rfl

end

namespace Expr

variable {older own : List Made} {bound : Nat} {e : Expr}

theorem launch_mirrors (there : e.within older.length = true) (small : e.size < bound) :
    Mirrors older bound own e.launch (e.resolve older).promise fun own p lit =>
      Stands older own p (.pending lit) := by
  have ground := ground_of_within there
  obtain ⟨p, made, shape⟩ := promise_eq (ground_resolve older ground)
  have settled : e.destiny older = p.outcome := by rw [destiny, made]
  refine ⟨.ok (.pending e.shape (.own own.length)), [⟨some e, e.destiny older⟩], ?_, ?_, ?_⟩
  · rw [launch, firstWildcard?_eq_none_iff.2 ground, ExceptT.run_mk, Activity.foresee, if_pos there]
    rfl
  · rintro m hm _ same
    obtain rfl := List.mem_singleton.1 hm
    obtain rfl := Option.some.inj same
    exact small
  · obtain ⟨_, outcome⟩ := p
    obtain rfl : _ = e.shape := shape.trans (e.resolve_shape older)
    rw [made]
    exact .ok (.pending List.getElem?_concat_length settled)

theorem evaluate_mirrors (own : List Made) (there : e.within older.length = true)
    (small : e.size ≤ bound) : Mirrors older bound own e.evaluate (e.resolve older).eval (Stands older) := by
  induction e generalizing own with
  | leaf h x =>
    cases x with
    | literal d => exact mirrors_pure (.ready d)
    | future f =>
      have lt : f.cell < older.length := of_decide_eq_true there
      have found := List.getElem?_eq_getElem lt
      have shared : (Ref.shared f.cell).find? older own = some older[f.cell] := found
      exact mirrors_pure (.pending shared (by rw [found]; rfl))
    | wildcard => cases there
  | unary h op x ih =>
    have smaller : x.size < bound := small
    have below := ih own there (Nat.le_of_lt smaller)
    cases op with
    | scale k =>
      refine mirrors_bind below fun own' x lit _ stands => ?_
      refine mirrors_bind (stands.read Literal.dense) fun own'' d _ _ same => ?_
      subst same
      refine mirrors_bind (mirrors_give _) fun _ d _ _ same => ?_
      subst same
      exact mirrors_pure (.ready d)
    | transpose =>
      refine mirrors_bind below fun own' x lit _ stands => ?_
      refine mirrors_bind (stands.read Literal.dense) fun own'' d _ _ same => ?_
      subst same
      refine mirrors_bind (mirrors_give _) fun _ d _ _ same => ?_
      subst same
      exact mirrors_pure (.ready d)
    | async =>
      rw [evaluate, ← bind_pure x.launch]
      refine mirrors_bind (launch_mirrors there smaller) fun own' x p _ stands => ?_
      exact mirrors_pure stands
  | binary h op l r ihl ihr =>
    obtain ⟨therel, therer⟩ := Bool.and_eq_true_iff.1 there
    have smaller : l.size + r.size < bound := small
    have left := ihl own therel (by omega)
    have right (own : List Made) := ihr own therer (by omega)
    cases op with
    | elementwise f =>
      refine mirrors_bind left fun own₁ x lit _ standsl => ?_
      refine mirrors_bind (right own₁) fun own₂ y lit' le standsr => ?_
      refine mirrors_bind (standsr.read Literal.intoArray) fun own₃ ys _ le' same => ?_
      subst same
      refine mirrors_bind (((standsl.mono le).mono le').read Literal.intoArray)
        fun own₄ xs _ _ same => ?_
      subst same
      rw [l.resolve_shape]
      exact mirrors_pure (.ready _)
    | product =>
      refine mirrors_bind left fun own₁ x lit _ standsl => ?_
      refine mirrors_bind (right own₁) fun own₂ y lit' le standsr => ?_
      refine mirrors_bind ((standsl.mono le).read Literal.dense) fun own₃ d _ le' same => ?_
      subst same
      refine mirrors_bind ((standsr.mono le').read Literal.dense) fun own₄ d' _ _ same => ?_
      subst same
      refine mirrors_bind (mirrors_give _) fun _ d _ _ same => ?_
      subst same
      exact mirrors_pure (.ready d)

theorem judging_mirrors (bound : Nat) (own : List Made) (there : e.within older.length = true) :
    Mirrors older bound own e.judging (e.resolve older).validate fun _ => Eq := by
  induction e generalizing own with
  | leaf h x =>
    cases x with
    | literal d => exact mirrors_pure rfl
    | future f =>
      have lt : f.cell < older.length := of_decide_eq_true there
      have found := List.getElem?_eq_getElem lt
      refine mirrors_of_foresee ?_ (concord_self (fun _ => rfl) _)
      rw [judging, ExceptT.run_mk, Activity.foresee_bind, Activity.promise, Activity.foresee,
        Ref.find?, found]
      simp only [resolve, found]
      rfl
    | wildcard => cases there
  | unary h op x ih => exact ih own there
  | binary h op l r ihl ihr =>
    obtain ⟨therel, therer⟩ := Bool.and_eq_true_iff.1 there
    refine mirrors_bind (ihl own therel) fun own₁ _ _ _ _ => ?_
    refine mirrors_bind (ihr own₁ therer) fun own₂ _ _ _ _ => ?_
    rw [l.resolve_shape, r.resolve_shape]
    exact mirrors_of_foresee rfl (concord_self (fun _ => rfl) _)

theorem evaluateToDense_mirrors (own : List Made) (there : e.within older.length = true) :
    Mirrors older e.size own e.evaluateToDense ((e.resolve older).eval >>= Literal.dense)
      fun _ => Eq :=
  mirrors_bind (evaluate_mirrors own there (Nat.le_refl _)) fun _ _ _ _ stands =>
    stands.read Literal.dense

theorem destiny_eq (ground : e.Ground) : e.destiny older =
    match (e.resolve older).validate with
    | .error stop => .error stop.toError
    | .ok () => ((e.resolve older).eval >>= Literal.dense).mapError .background := by
  rw [destiny, promise, promiseBy, firstWildcard?_eq_none_iff.2 (ground_resolve older ground)]
  rfl

def children (older : List Made) (e : Expr) : List Made := (e.task.foresee (fun _ => older) []).2

/-- A task ends in what the promise of its expression ends in, over the futures as they have ended.
The tasks that it starts have smaller expressions. -/
theorem task_foresee (there : e.within older.length = true) :
    e.task.foresee (fun _ => older) [] = (some (e.destiny older), e.children older) ∧
      Smaller e.size (e.children older) := by
  obtain ⟨_, new, ran, small, same⟩ := judging_mirrors e.size [] there
  obtain ⟨_, new', ran', small', same'⟩ := evaluateToDense_mirrors ([] ++ new) there
  obtain rfl := same.eq
  obtain rfl := same'.eq
  have all : Smaller e.size (new ++ new') :=
    fun m hm => (List.mem_append.1 hm).elim (small m) (small' m)
  rw [children, task, Activity.foresee_bind, ran, destiny_eq (ground_of_within there)]
  cases (e.resolve older).validate with
  | error stop => exact ⟨rfl, small⟩
  | ok _ =>
    simp only [Activity.foresee_bind, ran']
    exact ⟨rfl, all⟩

end Expr

end LazyMatrix
