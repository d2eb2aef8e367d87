import LazyMatrix.Template
import LazyMatrix.Proofs.Expr.Copying
import LazyMatrix.Proofs.Pass.Soundness
import LazyMatrix.Proofs.Pattern.Parallel
import Mathlib.Logic.Function.Iterate

/-! Compiling an expression and compiling its copy. A pass is impartial if paired nodes are all the
same to it. Templates without literals and futures are, a pass that is remains so throughout an
expression, and a list of such passes cannot tell an expression from its copy: handles decide which
nodes are the same, and a pairing keeps that. -/

namespace LazyMatrix

variable {ρ ρ' base : Expr → Expr → Prop} {x y : Expr}

inductive PassError.Alike : PassError → PassError → Prop where
  | mismatch {e e' : MatchError} (alike : e.Alike e') : Alike (.mismatch e) (.mismatch e')
  | broken (u : Unbound) : Alike (.broken u) (.broken u)

namespace Pass

/-- A pass that makes a pair of a pair, or fails alike for both. -/
def Impartial (run : Expr → Attempt PassError Expr) : Prop :=
  ∀ ρ x y, ρ x y → Abreast ρ (run x) (run y) PassError.Alike fun ρ' => ρ'

variable {run : Expr → Attempt PassError Expr}

theorem orKeep_abreast (h : Impartial run) (hxy : ρ x y) :
    Abreast ρ (orKeep run x) (orKeep run y) PassError.Alike fun ρ' => ρ' := by
  refine abreast_tryCatch (h ρ x y hxy) fun ρ' e e' le alike => ?_
  cases alike with
  | mismatch alike => exact abreast_pure (le x y hxy)
  | broken u => exact abreast_throw (.broken u)

def Aligned (base ρ : Expr → Expr → Prop) (memo memo' : Memo) : Prop :=
  ∀ x y, base x y → Option.Rel ρ memo[x.handle]? memo'[y.handle]?

theorem aligned_empty : Aligned base ρ {} {} := fun x y _ => by
  rw [Std.TreeMap.getElem?_emptyc, Std.TreeMap.getElem?_emptyc]
  exact .none

theorem Aligned.mono {memo memo' : Memo} (h : Aligned base ρ memo memo') (le : ρ ≤ ρ') :
    Aligned base ρ' memo memo' := by
  intro x y hxy
  have found := h x y hxy
  generalize memo[x.handle]? = a, memo'[y.handle]? = b at found
  cases found with
  | none => exact .none
  | some paired => exact .some (le _ _ paired)

theorem Aligned.insert {memo memo' : Memo} {next next' : Nat} (h : Aligned base ρ memo memo')
    (pairing : Expr.Pairing base next next') (hxy : base x y) {a b : Expr} (hab : ρ a b) :
    Aligned base ρ (memo.insert x.handle a) (memo'.insert y.handle b) := by
  intro z w hzw
  have same := pairing.handle_eq_iff hxy hzw
  rw [Std.TreeMap.getElem?_insert, Std.TreeMap.getElem?_insert]
  by_cases eq : x.handle = z.handle
  · rw [if_pos (by simpa using eq), if_pos (by simpa using same.1 eq)]
    exact .some hab
  · rw [if_neg (by simpa using eq), if_neg (by simpa using fun eq' => eq (same.2 eq'))]
    exact h z w hzw

def Settling (base ρ : Expr → Expr → Prop) (result result' : Expr × Memo) : Prop :=
  ρ result.1 result'.1 ∧ Aligned base ρ result.2 result'.2

theorem settle_abreast (h : Impartial run) {next next' : Nat}
    (pairing : Expr.Pairing base next next') (hxy : base x y) {a b : Expr} (hab : ρ a b)
    {memo memo' : Memo} (m : Aligned base ρ memo memo') :
    Abreast ρ (settle run x.handle a memo) (settle run y.handle b memo') PassError.Alike
      (Settling base) := by
  refine abreast_bind (orKeep_abreast h hab) fun ρ' a b le hab => ?_
  exact abreast_pure ⟨hab, (m.mono le).insert pairing hxy hab⟩

theorem overOperand_parallel {h h' : Nat} {op : UnaryOp} {a b : Expr} (hxy : ρ x y) (hab : ρ a b)
    (node : ρ (.unary h op x) (.unary h' op y)) :
    Parallel ρ (overOperand h op x a) (overOperand h' op y b) fun ρ' => ρ' := by
  refine Parallel.of_pairing fun next next' pairing => ?_
  rw [overOperand, overOperand, pairing.same_eq hab hxy]
  split
  · exact parallel_pure node
  · exact Expr.parallel_newUnary op hab

theorem overOperands_parallel {h h' : Nat} {op : BinaryOp} {l r l' r' a b c d : Expr}
    (hl : ρ l l') (hr : ρ r r') (left : ρ a b) (right : ρ c d)
    (node : ρ (.binary h op l r) (.binary h' op l' r')) :
    Parallel ρ (overOperands h op l r a c) (overOperands h' op l' r' b d) fun ρ' => ρ' := by
  refine Parallel.of_pairing fun next next' pairing => ?_
  rw [overOperands, overOperands, pairing.same_eq left hl, pairing.same_eq right hr]
  split
  · exact parallel_pure node
  · exact Expr.parallel_newBinary op left right

theorem throughout_abreast (h : Impartial run) {next next' : Nat}
    (pairing : Expr.Pairing base next next') (le : base ≤ ρ) (hxy : base x y) {memo memo' : Memo}
    (m : Aligned base ρ memo memo') :
    Abreast ρ (throughout run x memo) (throughout run y memo') PassError.Alike (Settling base) := by
  -- `ρ` grows along the walk; the tables are compared at the nodes of `base`, which does not
  induction x generalizing y ρ memo memo' with
  | leaf i a =>
    cases pairing.mirrors _ _ hxy with
    | @leaf _ j _ b alike =>
      have found : Option.Rel ρ memo[i]? memo'[j]? := m _ _ hxy
      rw [throughout, throughout]
      generalize memo[i]? = done, memo'[j]? = done' at found
      cases found with
      | some paired => exact abreast_pure ⟨paired, m⟩
      | none => exact settle_abreast h pairing hxy (le _ _ hxy) m
  | unary i op x ih =>
    cases pairing.mirrors _ _ hxy with
    | @unary _ j _ _ y operand =>
      have found : Option.Rel ρ memo[i]? memo'[j]? := m _ _ hxy
      rw [throughout, throughout]
      generalize memo[i]? = done, memo'[j]? = done' at found
      cases found with
      | some paired => exact abreast_pure ⟨paired, m⟩
      | none =>
        refine abreast_bind (ih le operand m) ?_
        rintro ρ₁ ⟨a, memo⟩ ⟨b, memo'⟩ le₁ ⟨paired, m⟩
        have node := le₁ _ _ (le _ _ hxy)
        refine abreast_bind (abreast_lift
          (overOperand_parallel (le₁ _ _ (le _ _ operand)) paired node)) ?_
        intro ρ₂ c d le₂ rebuilt
        exact settle_abreast h pairing hxy rebuilt (m.mono le₂)
  | binary i op l r ihl ihr =>
    cases pairing.mirrors _ _ hxy with
    | @binary _ j _ _ _ l' r' left right =>
      have found : Option.Rel ρ memo[i]? memo'[j]? := m _ _ hxy
      rw [throughout, throughout]
      generalize memo[i]? = done, memo'[j]? = done' at found
      cases found with
      | some paired => exact abreast_pure ⟨paired, m⟩
      | none =>
        refine abreast_bind (ihl le left m) ?_
        rintro ρ₁ ⟨a, memo⟩ ⟨b, memo'⟩ le₁ ⟨pairedl, m⟩
        refine abreast_bind (ihr (le.trans le₁) right m) ?_
        rintro ρ₂ ⟨c, memo⟩ ⟨d, memo'⟩ le₂ ⟨pairedr, m⟩
        have old : base ≤ ρ₂ := le.trans (le₁.trans le₂)
        refine abreast_bind (abreast_lift (overOperands_parallel (old _ _ left) (old _ _ right)
          (le₂ _ _ pairedl) pairedr (old _ _ hxy))) ?_
        intro ρ₃ e f le₃ rebuilt
        exact settle_abreast h pairing hxy rebuilt (m.mono le₃)

theorem Impartial.everywhere {p : Pass} (h : Impartial p.run) : Impartial p.everywhere.run := by
  intro ρ x y hxy s t pairing
  refine abreast_bind (throughout_abreast h pairing le_rfl hxy aligned_empty) ?_ s t pairing
  rintro ρ' ⟨a, memo⟩ ⟨b, memo'⟩ - ⟨paired, -⟩
  exact abreast_pure paired

theorem Impartial.iterate {p : Pass} (h : Impartial p.run) (n : Nat) :
    Impartial (Pass.everywhere^[n] p).run := by
  induction n generalizing p with
  | zero => exact h
  | succ n ih => exact ih h.everywhere

end Pass

namespace Template

def Wild (t : Template) : Prop := t.source.Wild ∧ t.target.Wild

variable {t : Template}

theorem matchWith_abreast (wild : t.source.Wild) (hxy : ρ x y) :
    Abreast ρ (t.matchWith x) (t.matchWith y) MatchError.Alike Bindings.Paired := by
  refine Parallel.of_pairing fun next next' pairing => ?_
  have matched := Expr.matchAt_paired pairing wild hxy Bindings.paired_empty 0
  rw [matchWith, matchWith, Expr.matchPattern, Expr.matchPattern]
  generalize x.matchAt 0 t.source {} = m, y.matchAt 0 t.source {} = m' at matched
  obtain ⟨b, e, es⟩ := m
  obtain ⟨b', e', es'⟩ := m'
  refine abreast_bind (abreast_lift (parallel_noteAll es es')) fun ρ' _ _ le _ => ?_
  cases matched.error with
  | none => exact abreast_pure (matched.bindings.mono le)
  | some alike => exact abreast_throw alike

theorem impartial (wild : t.Wild) : Pass.Impartial t.toPass.run := by
  intro ρ x y hxy
  refine abreast_bind (abreast_lift (matchWith_abreast wild.1 hxy)) fun ρ₁ m m' le₁ matched => ?_
  cases matched with
  | error alike =>
    exact abreast_bind (abreast_lift (parallel_note _ _)) fun _ _ _ _ _ =>
      abreast_throw (.mismatch alike)
  | ok paired =>
    refine abreast_bind (abreast_lift (Expr.construct_abreast wild.2 paired)) ?_
    intro ρ₂ c c' le₂ constructed
    cases constructed with
    | error same => exact abreast_throw (same ▸ .broken _)
    | ok paired =>
      exact abreast_bind (abreast_lift (parallel_note _ _)) fun ρ₃ _ _ le₃ _ =>
        abreast_pure (le₃ _ _ paired)

end Template

/-- The same finding, the same rule that failed and alike, or the same fault. -/
inductive CompileError.Alike : Stop CompileError → Stop CompileError → Prop where
  | invalid (e : Error) : Alike (.error (.invalid e)) (.error (.invalid e))
  | pass (name : String) {e e' : PassError} (alike : e.Alike e') :
      Alike (.error (.pass name e)) (.error (.pass name e'))
  | fault (f : Fault) : Alike (.fault f) (.fault f)

namespace Compiler

/-- Every pass is a template without literals and futures, used at the root or throughout, or
throughout what it made throughout, and so on. -/
def Templated (c : Compiler) : Prop :=
  ∀ p ∈ c.passes, ∃ (t : Template) (n : Nat), t.Wild ∧ p = Pass.everywhere^[n] t.toPass

theorem Templated.impartial {c : Compiler} (h : c.Templated) :
    ∀ p ∈ c.passes, Pass.Impartial p.run := by
  intro p hp
  obtain ⟨t, n, wild, rfl⟩ := h p hp
  exact (Template.impartial wild).iterate n

theorem judge_abreast (hxy : ρ x y) :
    Abreast ρ (judge x) (judge y) CompileError.Alike fun _ _ _ => True := by
  refine Parallel.of_pairing fun next next' pairing => ?_
  rw [judge, judge, (pairing.resembles hxy).validate_eq]
  cases x.validate with
  | ok _ => exact abreast_pure trivial
  | error stop =>
    cases stop with
    | error e => exact abreast_throw (.invalid e)
    | fault f => exact abreast_throw (.fault f)

theorem run_abreast {ps : List Pass} (h : ∀ p ∈ ps, Pass.Impartial p.run) (hxy : ρ x y) :
    Abreast ρ (run ps x) (run ps y) CompileError.Alike fun ρ' => ρ' := by
  induction ps generalizing ρ x y with
  | nil => exact abreast_pure hxy
  | cons p ps ih =>
    refine abreast_bind (abreast_lift (h p (by simp) ρ x y hxy)) fun ρ₁ a b le₁ ran => ?_
    cases ran with
    | error alike =>
      exact abreast_bind (abreast_lift (parallel_note _ _)) fun _ _ _ _ _ =>
        abreast_throw (.pass p.name alike)
    | ok paired =>
      exact abreast_bind (abreast_lift (parallel_note _ _)) fun _ _ _ le₂ _ =>
        ih (fun q hq => h q (by simp [hq])) (le₂ _ _ paired)

theorem compile_abreast {c : Compiler} (h : ∀ p ∈ c.passes, Pass.Impartial p.run) (hxy : ρ x y) :
    Abreast ρ (c.compile x) (c.compile y) CompileError.Alike fun ρ' => ρ' := by
  have noted (ρ : Expr → Expr → Prop) (x y : Expr) (hxy : ρ x y) :
      Abreast ρ (do Session.note (.compiled c.size); return x : Attempt (Stop CompileError) Expr)
        (do Session.note (.compiled c.size); return y) CompileError.Alike fun ρ' => ρ' :=
    abreast_bind (abreast_lift (parallel_note _ _)) fun _ _ _ le _ => abreast_pure (le _ _ hxy)
  cases v : c.validates with
  | false =>
    rw [compile_of_unvalidated v, compile_of_unvalidated v]
    exact abreast_bind (run_abreast h hxy) fun ρ' x y _ paired => noted ρ' x y paired
  | true =>
    rw [compile_of_validates v, compile_of_validates v]
    refine abreast_bind (judge_abreast hxy) fun ρ₁ _ _ le₁ _ => ?_
    refine abreast_bind (run_abreast h (le₁ _ _ hxy)) fun ρ₂ x y _ paired => ?_
    exact abreast_bind (judge_abreast paired) fun ρ₃ _ _ le₃ _ => noted ρ₃ x y (le₃ _ _ paired)

/-- A compiler of templates without literals and futures does not depend on which copy of an
expression it is given. The two may be compiled in whatever sessions have the nodes. -/
theorem compile_copy {c : Compiler} (templated : c.Templated) {nodes : Set Expr} {s : Session}
    (extant : Extant nodes s.next) {e : Expr} (he : e ∈ nodes) (announced : e.Announced)
    (t t' : Session) (le : s.next ≤ t.next) (le' : (s.run e.copy).2.next ≤ t'.next) :
    Concord CompileError.Alike Expr.Isomorphic (t.run (c.compile e).run).1
      (t'.run (c.compile (s.run e.copy).1).run).1 := by
  obtain ⟨memo, done⟩ := Expr.copy_copies extant he announced
  have pairing := done.copying.pairing.mono le le'
  obtain ⟨ρ', -, pairing, concord⟩ := compile_abreast templated.impartial done.root t t' pairing
  exact concord.mono fun _ _ => pairing.isomorphic

def doubling : Template :=
  ⟨"doubling", .binary 0 (.elementwise .add) (.leaf 1 (.wildcard ⟨0, "?a"⟩))
    (.leaf 1 (.wildcard ⟨0, "?a"⟩)), .unary 2 (.scale 2) (.leaf 1 (.wildcard ⟨0, "?a"⟩))⟩

def squaring : Template :=
  ⟨"squaring", .binary 3 .product (.leaf 1 (.wildcard ⟨0, "?a"⟩)) (.leaf 1 (.wildcard ⟨0, "?a"⟩)),
    .unary 4 .async (.binary 3 .product (.leaf 1 (.wildcard ⟨0, "?a"⟩))
      (.leaf 1 (.wildcard ⟨0, "?a"⟩)))⟩

theorem paddedProduct_compile_copy :
    (∃ nodes, Extant nodes 5 ∧ Expr.paddedProduct ∈ nodes) ∧ Expr.paddedProduct.Announced ∧
    Templated ⟨[doubling.everywhere], true⟩ ∧ Templated ⟨[squaring.toPass], false⟩ ∧
    (∃ out out', (({ next := 5 } : Session).run
        (compile ⟨[doubling.everywhere], true⟩ Expr.paddedProduct).run).1 = .ok out ∧
      (({ next := 20 } : Session).run (compile ⟨[doubling.everywhere], true⟩
        (({ next := 5 } : Session).run Expr.paddedProduct.copy).1).run).1 = .ok out' ∧
      out.Isomorphic out' ∧ out.distinct.map Expr.handle = [0, 1, 5, 6, 7] ∧
      out'.distinct.map Expr.handle = [5, 6, 20, 21, 22]) ∧
    ∃ stop, (({ next := 20 } : Session).run (compile ⟨[squaring.toPass], false⟩
        (({ next := 5 } : Session).run Expr.paddedProduct.copy).1).run).1 = .error stop ∧
      CompileError.Alike (.error (.pass "squaring" (.mismatch (.rebinding ⟨0, "?a"⟩
        (.unary 1 .transpose Expr.paddedColumn) (.unary 3 .async
          (.binary 2 (.elementwise .add) Expr.paddedColumn Expr.paddedColumn)))))) stop := by
  obtain ⟨nodes, extant, mem⟩ := paddedProduct_extant
  have once : Templated ⟨[doubling.everywhere], true⟩ := by
    intro p hp
    obtain rfl := List.mem_singleton.1 hp
    exact ⟨doubling, 1, ⟨⟨trivial, trivial⟩, trivial⟩, rfl⟩
  have atRoot : Templated ⟨[squaring.toPass], false⟩ := by
    intro p hp
    obtain rfl := List.mem_singleton.1 hp
    exact ⟨squaring, 0, ⟨⟨trivial, trivial⟩, ⟨trivial, trivial⟩⟩, rfl⟩
  have announced := Expr.paddedProduct_intact.announced
  refine ⟨⟨nodes, extant, mem⟩, announced, once, atRoot, ?_, ?_⟩
  · have concord := compile_copy once (s := { next := 5 }) extant mem announced { next := 5 }
      { next := 20 } le_rfl (by decide)
    refine ⟨_, _, rfl, rfl, ?_, rfl, rfl⟩
    cases concord with
    | ok isomorphic => exact isomorphic
  · have concord := compile_copy atRoot (s := { next := 5 }) extant mem announced { next := 5 }
      { next := 20 } le_rfl (by decide)
    refine ⟨_, rfl, ?_⟩
    cases concord with
    | error alike => exact alike

end Compiler

end LazyMatrix
