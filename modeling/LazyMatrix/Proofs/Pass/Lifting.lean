import LazyMatrix.Compiler
import LazyMatrix.Proofs.Building
import LazyMatrix.Proofs.Expr.Denotation
import Mathlib.Logic.Function.Iterate

/-! What a pass does at one node, lifted to every node and to a list of passes. The operators of an
expression may keep a relation that the pass keeps, and then so does the pass run throughout: a node
that it declines, one that is rebuilt over new operands and one that was met before are all related
to what they were. A node over the very operands it had is not rebuilt, so a relation may also tell
one handle from another. -/

namespace LazyMatrix

/-- A preorder on expressions that every operator keeps, whatever the handles. -/
structure Congruence (R : Expr → Expr → Prop) : Prop where
  refl : ∀ x, R x x
  trans : ∀ {x y z}, R x y → R y z → R x z
  unary : ∀ {x y} (h h' : Nat) (op : UnaryOp), R x y → R (.unary h op x) (.unary h' op y)
  binary : ∀ {l r l' r'} (h h' : Nat) (op : BinaryOp), R l l' → R r r' →
    R (.binary h op l r) (.binary h' op l' r')

/-- What a node is before a pass is run on it, but after it was run below: the same operator over
operands that are related to the old ones. Where they are the old ones it is the node itself. -/
inductive Renewed (R : Expr → Expr → Prop) : (old new : Expr) → Prop where
  | leaf (h : Nat) (x : Leaf) : Renewed R (.leaf h x) (.leaf h x)
  | unary {h h' : Nat} {op : UnaryOp} {x y : Expr} (operand : R x y) (kept : y = x → h' = h) :
      Renewed R (.unary h op x) (.unary h' op y)
  | binary {h h' : Nat} {op : BinaryOp} {l r l' r' : Expr} (left : R l l') (right : R r r')
      (kept : l' = l → r' = r → h' = h) : Renewed R (.binary h op l r) (.binary h' op l' r')

structure Renewal (R : Expr → Expr → Prop) : Prop where
  refl : ∀ x, R x x
  trans : ∀ {x y z}, R x y → R y z → R x z
  renewed : ∀ {x z}, Renewed R x z → R x z

theorem Congruence.renewal {R : Expr → Expr → Prop} (hR : Congruence R) : Renewal R where
  refl := hR.refl
  trans := hR.trans
  renewed
    | .leaf _ _ => hR.refl _
    | .unary operand _ => hR.unary _ _ _ operand
    | .binary left right _ => hR.binary _ _ _ left right

namespace Pass

/-- A pass that holds on to the nodes of `base` and relates what it is given to what it makes, which
is there afterwards. -/
def Keeps (base : Set Expr) (R : Expr → Expr → Prop) (run : Expr → Attempt PassError Expr) : Prop :=
  ∀ nodes x, base ⊆ nodes → x ∈ nodes → Attempts nodes (run x) fun more y => y ∈ more ∧ R x y

variable {base nodes : Set Expr} {R : Expr → Expr → Prop} {run : Expr → Attempt PassError Expr}

theorem Keeps.mono {S : Expr → Expr → Prop} (h : Keeps base R run) (le : ∀ x y, R x y → S x y) :
    Keeps base S run :=
  fun nodes x hb hx => (h nodes x hb hx).mono fun _ y _ hy => ⟨hy.1, le x y hy.2⟩

theorem attempts_orKeep {Q : Set Expr → Expr → Prop} {e : Expr} (made : Attempts nodes (run e) Q)
    (kept : ∀ s m, (Session.run s (run e).run).1 = .error (.mismatch m) →
      ∀ more, nodes ⊆ more → Q more e) :
    Attempts nodes (orKeep run e) Q := by
  intro s extant
  obtain ⟨more, le, extant', of_ok⟩ := made s extant
  rw [orKeep, ExceptT.run_tryCatch, Session.run_bind]
  cases ended : (s.run (run e).run).1 with
  | ok y => exact ⟨more, le, extant', fun z same => of_ok z (ended.trans same)⟩
  | error error =>
    cases error with
    | mismatch m =>
      refine ⟨more, le, extant', fun z same => ?_⟩
      obtain rfl : e = z := Except.ok.inj same
      exact kept s m ended more le
    | broken u => exact ⟨more, le, extant', fun _ same => nomatch same⟩

theorem orKeep_spec (hR : Renewal R) (hp : Keeps base R run) (hb : base ⊆ nodes) {e : Expr}
    (he : e ∈ nodes) : Attempts nodes (orKeep run e) fun more y => y ∈ more ∧ R e y :=
  attempts_orKeep (hp nodes e hb he) fun _ _ _ _ le => ⟨le he, hR.refl e⟩

def Recalls (nodes : Set Expr) (R : Expr → Expr → Prop) (memo : Memo) : Prop :=
  ∀ h y, memo[h]? = some y → y ∈ nodes ∧ ∃ z ∈ nodes, z.handle = h ∧ R z y

theorem Recalls.mono {memo : Memo} {more : Set Expr} (m : Recalls nodes R memo)
    (le : nodes ⊆ more) : Recalls more R memo := by
  intro h y found
  obtain ⟨hy, z, hz, same, rel⟩ := m h y found
  exact ⟨le hy, z, le hz, same, rel⟩

theorem recalls_empty : Recalls nodes R {} := by
  intro h y found
  simp at found

theorem Recalls.insert {memo : Memo} (m : Recalls nodes R memo) {z y : Expr} (hz : z ∈ nodes)
    (hy : y ∈ nodes) (rel : R z y) : Recalls nodes R (memo.insert z.handle y) := by
  intro h y' found
  rw [Std.TreeMap.getElem?_insert] at found
  split at found
  · next same =>
    obtain rfl := Option.some.inj found
    exact ⟨hy, z, hz, by simpa using same, rel⟩
  · exact m h y' found

theorem Recalls.rel_of_found {memo : Memo} {next : Nat} (m : Recalls nodes R memo)
    (extant : Extant nodes next) {e y : Expr} (he : e ∈ nodes) (found : memo[e.handle]? = some y) :
    y ∈ nodes ∧ R e y := by
  obtain ⟨hy, z, hz, same, rel⟩ := m _ y found
  obtain rfl := extant.handle_injOn hz he same
  exact ⟨hy, rel⟩

def Done (R : Expr → Expr → Prop) (e : Expr) (nodes : Set Expr) (result : Expr × Memo) : Prop :=
  result.1 ∈ nodes ∧ R e result.1 ∧ Recalls nodes R result.2

theorem recalled_spec {e y : Expr} (he : e ∈ nodes) {memo : Memo} (m : Recalls nodes R memo)
    (found : memo[e.handle]? = some y) :
    Attempts nodes (pure (y, memo) : Attempt PassError (Expr × Memo)) (Done R e) := by
  refine Attempts.of_extant fun ⟨next, extant⟩ => ?_
  obtain ⟨hy, rel⟩ := m.rel_of_found extant he found
  exact attempts_pure ⟨hy, rel, m⟩

theorem overOperand_spec {h : Nat} {op : UnaryOp} {x y : Expr} (he : .unary h op x ∈ nodes)
    (hy : y ∈ nodes) (rel : R x y) :
    Builds nodes (overOperand h op x y) fun more z => z ∈ more ∧ Renewed R (.unary h op x) z := by
  refine Builds.of_extant fun ⟨next, extant⟩ => ?_
  rw [overOperand]
  split
  · next same =>
    obtain rfl := extant.eq_of_same hy (extant.unary_mem he) same
    exact builds_pure ⟨he, .unary rel fun _ => rfl⟩
  · next differ =>
    refine (Expr.builds_newUnary op hy).mono ?_
    rintro more _ - ⟨hz, h', rfl⟩
    exact ⟨hz, .unary rel fun same => absurd (by simp [same, Expr.same]) differ⟩

theorem overOperands_spec {h : Nat} {op : BinaryOp} {l r left right : Expr}
    (he : .binary h op l r ∈ nodes) (hl : left ∈ nodes) (hr : right ∈ nodes) (rell : R l left)
    (relr : R r right) :
    Builds nodes (overOperands h op l r left right) fun more z =>
      z ∈ more ∧ Renewed R (.binary h op l r) z := by
  refine Builds.of_extant fun ⟨next, extant⟩ => ?_
  obtain ⟨mem, mem'⟩ := extant.binary_mem he
  rw [overOperands]
  split
  · next same =>
    obtain ⟨samel, samer⟩ := Bool.and_eq_true_iff.1 same
    obtain rfl := extant.eq_of_same hl mem samel
    obtain rfl := extant.eq_of_same hr mem' samer
    exact builds_pure ⟨he, .binary rell relr fun _ _ => rfl⟩
  · next differ =>
    refine (Expr.builds_newBinary op hl hr).mono ?_
    rintro more _ - ⟨hz, h', rfl⟩
    exact ⟨hz, .binary rell relr fun samel samer =>
      absurd (by simp [samel, samer, Expr.same]) differ⟩

/-- What is left in the place of a node is related to it, if the node's operands are related to what
is left in theirs. -/
def Settles (base : Set Expr) (R : Expr → Expr → Prop) (run : Expr → Attempt PassError Expr) :
    Prop :=
  ∀ nodes x z, base ⊆ nodes → x ∈ nodes → z ∈ nodes → Renewed R x z →
    Attempts nodes (orKeep run z) fun more y => y ∈ more ∧ R x y

theorem Keeps.settles (hR : Renewal R) (hp : Keeps base R run) : Settles base R run := by
  intro nodes x z hb _ hz renewed
  refine (orKeep_spec hR hp hb hz).mono fun more y _ ⟨hy, rel⟩ => ?_
  exact ⟨hy, hR.trans (hR.renewed renewed) rel⟩

theorem settle_spec (hp : Settles base R run) (hb : base ⊆ nodes) {e rebuilt : Expr}
    (he : e ∈ nodes) (hr : rebuilt ∈ nodes) (renewed : Renewed R e rebuilt) {memo : Memo}
    (m : Recalls nodes R memo) :
    Attempts nodes (settle run e.handle rebuilt memo) (Done R e) := by
  refine attempts_bind (hp nodes e rebuilt hb he hr renewed) fun more y le ⟨hy, rel⟩ => ?_
  exact attempts_pure ⟨hy, rel, (m.mono le).insert (le he) hy rel⟩

theorem throughout_spec (hp : Settles base R run) (hb : base ⊆ nodes) {e : Expr} (he : e ∈ nodes)
    {memo : Memo} (m : Recalls nodes R memo) :
    Attempts nodes (throughout run e memo) (Done R e) := by
  induction e generalizing nodes memo with
  | leaf h x =>
    rw [throughout]
    cases found : memo[h]? with
    | some y => exact recalled_spec he m found
    | none => exact settle_spec hp hb he he (.leaf h x) m
  | unary h op x ih =>
    refine Attempts.of_extant fun ⟨next, extant⟩ => ?_
    rw [throughout]
    cases found : memo[h]? with
    | some y => exact recalled_spec he m found
    | none =>
      refine attempts_bind (ih hb (extant.unary_mem he) m) ?_
      rintro more ⟨y, memo⟩ le ⟨hy, rel, m⟩
      refine attempts_bind (attempts_lift (overOperand_spec (le he) hy rel)) ?_
      rintro most z le' ⟨hz, renewed⟩
      exact settle_spec (e := .unary h op x) hp (hb.trans (le.trans le')) (le' (le he)) hz renewed
        (m.mono le')
  | binary h op l r ihl ihr =>
    refine Attempts.of_extant fun ⟨next, extant⟩ => ?_
    obtain ⟨hl, hr⟩ := extant.binary_mem he
    rw [throughout]
    cases found : memo[h]? with
    | some y => exact recalled_spec he m found
    | none =>
      refine attempts_bind (ihl hb hl m) ?_
      rintro one ⟨left, memo⟩ le₁ ⟨hleft, rell, m⟩
      refine attempts_bind (ihr (hb.trans le₁) (le₁ hr) m) ?_
      rintro two ⟨right, memo⟩ le₂ ⟨hright, relr, m⟩
      have le₁₂ := le₁.trans le₂
      refine attempts_bind (attempts_lift
        (overOperands_spec (le₁₂ he) (le₂ hleft) hright rell relr)) ?_
      rintro three z le₃ ⟨hz, renewed⟩
      exact settle_spec (e := .binary h op l r) hp (hb.trans (le₁₂.trans le₃)) (le₃ (le₁₂ he)) hz
        renewed (m.mono le₃)

theorem Settles.everywhere {p : Pass} (hp : Settles base R p.run) :
    Keeps base R p.everywhere.run := by
  intro nodes x hb hx
  refine attempts_bind (throughout_spec hp hb hx recalls_empty) ?_
  rintro more ⟨y, memo⟩ le ⟨hy, rel, -⟩
  exact attempts_pure ⟨hy, rel⟩

theorem Keeps.everywhere (hR : Congruence R) {p : Pass} (hp : Keeps base R p.run) :
    Keeps base R p.everywhere.run :=
  (hp.settles hR.renewal).everywhere

theorem Keeps.iterate (hR : Congruence R) {p : Pass} (hp : Keeps base R p.run) (n : Nat) :
    Keeps base R (Pass.everywhere^[n] p).run := by
  induction n generalizing p with
  | zero => exact hp
  | succ n ih => exact ih (hp.everywhere hR)

/-- A pass that may decline and is never broken. -/
def Unbroken (run : Expr → Attempt PassError Expr) : Prop :=
  ∀ (s : Session) (e : Expr) (u : Unbound), (s.run (run e).run).1 ≠ .error (.broken u)

theorem orKeep_succeeds (h : Unbroken run) (e : Expr) : Succeeds (orKeep run e) := by
  intro s
  have unbroken := h s e
  rw [orKeep, ExceptT.run_tryCatch, Session.run_bind]
  revert unbroken
  cases (s.run (run e).run).1 with
  | ok y => exact fun _ => ⟨y, rfl⟩
  | error error =>
    cases error with
    | mismatch m => exact fun _ => ⟨e, rfl⟩
    | broken u => exact fun unbroken => absurd rfl (unbroken u)

theorem settle_succeeds (h : Unbroken run) (handle : Nat) (e : Expr) (memo : Memo) :
    Succeeds (settle run handle e memo) :=
  succeeds_bind (orKeep_succeeds h e) fun _ => succeeds_pure _

theorem throughout_succeeds (h : Unbroken run) (e : Expr) (memo : Memo) :
    Succeeds (throughout run e memo) := by
  induction e generalizing memo with
  | leaf i x =>
    rw [throughout]
    split
    · exact succeeds_pure _
    · exact settle_succeeds h _ _ _
  | unary i op x ih =>
    rw [throughout]
    split
    · exact succeeds_pure _
    · refine succeeds_bind (ih memo) fun ⟨y, memo⟩ => ?_
      exact succeeds_bind (succeeds_lift _) fun z => settle_succeeds h _ z _
  | binary i op l r ihl ihr =>
    rw [throughout]
    split
    · exact succeeds_pure _
    · refine succeeds_bind (ihl memo) fun ⟨left, memo⟩ => ?_
      refine succeeds_bind (ihr memo) fun ⟨right, memo⟩ => ?_
      exact succeeds_bind (succeeds_lift _) fun z => settle_succeeds h _ z _

theorem everywhere_succeeds {p : Pass} (h : Unbroken p.run) (e : Expr) :
    Succeeds (p.everywhere.run e) :=
  succeeds_bind (throughout_succeeds h e {}) fun _ => succeeds_pure _

end Pass

namespace Compiler

variable {base nodes : Set Expr} {R : Expr → Expr → Prop}

theorem attempts_judge (e : Expr) : Attempts nodes (judge e) fun _ _ => e.validate = .ok () := by
  rw [judge]
  cases e.validate with
  | ok _ => exact attempts_pure rfl
  | error stop => cases stop <;> exact attempts_throw _

variable {P : Expr → Prop}

theorem run_cons_spec {p : Pass} {ps : List Pass} {e : Expr} {Q : Set Expr → Expr → Prop}
    (ran : Attempts nodes (p.run e) fun more y => y ∈ more ∧ P y)
    (rest : ∀ more y, nodes ⊆ more → y ∈ more → P y → Attempts more (run ps y) Q) :
    Attempts nodes (run (p :: ps) e) Q := by
  refine attempts_bind (attempts_lift ran) fun more result le done => ?_
  cases result with
  | error error =>
    exact attempts_bind (attempts_lift (builds_note _)) fun _ _ _ _ => attempts_throw _
  | ok y =>
    obtain ⟨hy, held⟩ := done y rfl
    refine attempts_bind (attempts_lift (builds_note _)) fun most _ le' _ => ?_
    exact rest most y (le.trans le') (le' hy) held

theorem run_invariant {ps : List Pass}
    (hp : ∀ p ∈ ps, Pass.Keeps base (fun x y => P x → P y) p.run) (hb : base ⊆ nodes) {e : Expr}
    (he : e ∈ nodes) (held : P e) : Attempts nodes (run ps e) fun more y => y ∈ more ∧ P y := by
  induction ps generalizing nodes e with
  | nil => exact attempts_pure ⟨he, held⟩
  | cons p ps ih =>
    rw [List.forall_mem_cons] at hp
    refine run_cons_spec (hp.1 nodes e hb he) fun more y le hy keeps => ?_
    exact ih hp.2 (hb.trans le) hy (keeps held)

theorem run_established {before after : List Pass} {p : Pass}
    (earlier : ∀ q ∈ before, Pass.Keeps base (fun _ _ => True) q.run)
    (now : Pass.Keeps base (fun _ y => P y) p.run)
    (later : ∀ q ∈ after, Pass.Keeps base (fun x y => P x → P y) q.run) (hb : base ⊆ nodes)
    {e : Expr} (he : e ∈ nodes) :
    Attempts nodes (run (before ++ p :: after) e) fun more y => y ∈ more ∧ P y := by
  induction before generalizing nodes e with
  | nil =>
    refine run_cons_spec (now nodes e hb he) fun more y le hy held => ?_
    exact run_invariant later (hb.trans le) hy held
  | cons q before ih =>
    rw [List.forall_mem_cons] at earlier
    refine run_cons_spec (earlier.1 nodes e hb he) fun more y le hy _ => ?_
    exact ih earlier.2 (hb.trans le) hy

theorem run_spec (hR : Renewal R) {ps : List Pass} (hp : ∀ p ∈ ps, Pass.Keeps base R p.run)
    (hb : base ⊆ nodes) {e : Expr} (he : e ∈ nodes) :
    Attempts nodes (run ps e) fun more y => y ∈ more ∧ R e y :=
  run_invariant (fun p hq => (hp p hq).mono fun _ _ rel rel' => hR.trans rel' rel) hb he (hR.refl e)

theorem run_pushAll (c : Compiler) (ps : List Pass) (s : Session) :
    (s.run (c.pushAll ps)).1 = { c with passes := c.passes ++ ps } := by
  induction ps generalizing c s with
  | nil => simp [pushAll]
  | cons p ps ih =>
    have pushed (s : Session) : (s.run (c.push p)).1 = { c with passes := c.passes ++ [p] } := by
      rw [push]
      split <;> rfl
    rw [pushAll, List.foldlM_cons, Session.run_bind, pushed]
    have rest := ih { c with passes := c.passes ++ [p] } (s.run (c.push p)).2
    rw [pushAll] at rest
    simpa using rest

theorem compile_of_unvalidated {c : Compiler} (v : c.validates = false) (e : Expr) :
    c.compile e = do
      let result ← run c.passes e
      Session.note (.compiled c.size)
      return result := by
  simp [compile, v]

theorem compile_of_validates {c : Compiler} (v : c.validates = true) (e : Expr) :
    c.compile e = do
      judge e
      let result ← run c.passes e
      judge result
      Session.note (.compiled c.size)
      return result := by
  simp [compile, v]

theorem compile_of_run {c : Compiler} {e : Expr}
    (ran : ∀ nodes : Set Expr, base ⊆ nodes → e ∈ nodes →
      Attempts nodes (run c.passes e) fun more y => y ∈ more ∧ P y)
    (hb : base ⊆ nodes) (he : e ∈ nodes) :
    Attempts nodes (c.compile e) fun more y => y ∈ more ∧ P y := by
  have noted (more : Set Expr) (y : Expr) (hy : y ∈ more ∧ P y) :
      Attempts more
        (do Session.note (.compiled c.size); return y : Attempt (Stop CompileError) Expr)
        fun more y => y ∈ more ∧ P y :=
    attempts_bind (attempts_lift (builds_note _)) fun _ _ le _ => attempts_pure ⟨le hy.1, hy.2⟩
  cases v : c.validates with
  | false =>
    rw [compile_of_unvalidated v]
    exact attempts_bind (ran nodes hb he) fun more y _ hy => noted more y hy
  | true =>
    rw [compile_of_validates v]
    refine attempts_bind (attempts_judge e) fun more _ le _ => ?_
    refine attempts_bind (ran more (hb.trans le) (le he)) fun most y _ ⟨hy, held⟩ => ?_
    exact attempts_bind (attempts_judge y) fun last _ le' _ => noted last y ⟨le' hy, held⟩

theorem compile_keeps (hR : Renewal R) {c : Compiler}
    (hp : ∀ p ∈ c.passes, Pass.Keeps base R p.run) (hb : base ⊆ nodes) {e : Expr} (he : e ∈ nodes) :
    Attempts nodes (c.compile e) fun more y => y ∈ more ∧ R e y :=
  compile_of_run (fun _ hb he => run_spec hR hp hb he) hb he

theorem compile_spec (hR : Congruence R) {c : Compiler}
    (hp : ∀ p ∈ c.passes, Pass.Keeps base R p.run) (hb : base ⊆ nodes) {e : Expr} (he : e ∈ nodes) :
    Attempts nodes (c.compile e) fun more y => y ∈ more ∧ R e y :=
  compile_keeps hR.renewal hp hb he

theorem run_succeeds {ps : List Pass} (h : ∀ p ∈ ps, ∀ e, Succeeds (p.run e)) (e : Expr) :
    Succeeds (run ps e) := by
  induction ps generalizing e with
  | nil => exact succeeds_pure e
  | cons p ps ih =>
    intro s
    obtain ⟨y, ran⟩ := h p (by simp) e s
    have rest : Succeeds (do Session.note (.passed p.name y); run ps y) :=
      succeeds_bind (succeeds_lift _) fun _ => ih (fun q hq => h q (by simp [hq])) y
    rw [run, ExceptT.run_bind, Session.run_bind, Session.run_attempt_lift, ran]
    exact rest _

theorem compile_succeeds {c : Compiler} (v : c.validates = false)
    (h : ∀ p ∈ c.passes, ∀ e, Succeeds (p.run e)) (e : Expr) : Succeeds (c.compile e) := by
  rw [compile_of_unvalidated v]
  exact succeeds_bind (run_succeeds h e) fun _ =>
    succeeds_bind (succeeds_lift _) fun _ => succeeds_pure _

theorem judge_of_valid {e : Expr} (h : e.validate = .ok ()) : judge e = pure () := by
  rw [judge, h]

theorem judge_of_invalid {e : Expr} {x : Error} (h : e.validate = .error (.error x)) :
    judge e = throw (.error (.invalid x)) := by
  rw [judge, h]

theorem compile_error_iff {c : Compiler} (v : c.validates = true) (hR : Congruence R)
    (hv : ∀ x y, R x y → x.validate = .ok () → y.validate = .ok ())
    (succeeds : ∀ p ∈ c.passes, ∀ e, Succeeds (p.run e))
    (hp : ∀ p ∈ c.passes, Pass.Keeps base R p.run) (hb : base ⊆ nodes) {s : Session}
    (extant : Extant nodes s.next) {e : Expr} (he : e ∈ nodes) (ground : e.Ground)
    {stop : Stop CompileError} :
    (s.run (c.compile e).run).1 = .error stop ↔
      ∃ x, e.validate = .error (.error x) ∧ stop = .error (.invalid x) := by
  rw [compile_of_validates v]
  cases h : e.validate with
  | ok _ =>
    obtain ⟨y, ran⟩ := run_succeeds succeeds e s
    obtain ⟨more, -, -, made⟩ := run_spec hR.renewal hp hb he s extant
    have valid := hv e y (made y ran).2 h
    have rest : Succeeds (do judge y; Session.note (.compiled c.size); return y) := by
      rw [judge_of_valid valid]
      exact succeeds_bind (succeeds_pure ()) fun _ =>
        succeeds_bind (succeeds_lift _) fun _ => succeeds_pure _
    have all : ∃ out, (s.run (ExceptT.run (do
        let result ← run c.passes e
        judge result
        Session.note (.compiled c.size)
        return result))).1 = .ok out := by
      rw [ExceptT.run_bind, Session.run_bind, ran]
      exact rest _
    obtain ⟨out, ok⟩ := all
    rw [judge_of_valid h, pure_bind, ok]
    simp
  | error found =>
    cases found with
    | fault fault => exact absurd h (ground.no_fault fault)
    | error x =>
      rw [judge_of_invalid h]
      simp [eq_comm]

end Compiler

end LazyMatrix
