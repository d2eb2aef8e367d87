import LazyMatrix.Proofs.Expr.Postorder
import LazyMatrix.Proofs.Rules.Soundness
import LazyMatrix.Proofs.Template.Flip

/-! What the built-in compilers leave. A rule is run once at each node, operands first, and that is
enough for it: what it makes of a node over operands that have no place left for the rule has none
either. The rules that come after it do not bring such a place back, since they keep the kind of every
node they are run on and make only nodes that have something to do with the background. -/

namespace LazyMatrix

theorem Bindings.find?_cons (v w : Wildcard) (x : Expr) (rest : List (Wildcard × Expr)) :
    find? ⟨(v, x) :: rest⟩ w = if v = w then some x else find? ⟨rest⟩ w := by
  by_cases same : v = w <;> simp [find?, same]

namespace Expr

def IsOver (x : Expr) (k : Kind) (ks : List Kind) : Prop := x.kind = k ∧ x.operands.map kind = ks

/-- There is no node of kind `k` over operands of the kinds `ks`. -/
def Lacks (e : Expr) (k : Kind) (ks : List Kind) : Prop := ∀ x ∈ e.postorder, ¬ x.IsOver k ks

variable {x y z : Expr} {k : Kind} {ks : List Kind}

theorem lacks_unary {h : Nat} {op : UnaryOp} :
    (unary h op x).Lacks k ks ↔ x.Lacks k ks ∧ ¬ (op.kind = k ∧ [x.kind] = ks) := by
  simp only [Lacks, mem_postorder_unary, or_imp, forall_and, forall_eq]
  rfl

theorem lacks_binary {h : Nat} {op : BinaryOp} {l r : Expr} :
    (binary h op l r).Lacks k ks ↔
      l.Lacks k ks ∧ r.Lacks k ks ∧ ¬ (op.kind = k ∧ [l.kind, r.kind] = ks) := by
  simp only [Lacks, mem_postorder_binary, or_imp, forall_and, forall_eq]
  rfl

theorem lacks_iff : x.Lacks k ks ↔ (∀ c ∈ x.operands, c.Lacks k ks) ∧ ¬ x.IsOver k ks := by
  cases x with
  | leaf h a => simp [Lacks, operands]
  | unary h op a => simp [lacks_unary, operands, IsOver, kind]
  | binary h op l r => simp [lacks_binary, operands, IsOver, kind, and_assoc]

theorem exists_unary_of_kind (op : UnaryOp) (other : op.kind ≠ .scale) (h : x.kind = op.kind) :
    ∃ i a, x = .unary i op a := by
  obtain ⟨i, op', a, rfl⟩ := eq_unary_of_kind h.symm
  obtain rfl := UnaryOp.eq_of_kind_eq h.symm other
  exact ⟨i, a, rfl⟩

theorem exists_binary_of_kind (op : BinaryOp) (h : x.kind = op.kind) :
    ∃ i l r, x = .binary i op l r := by
  obtain ⟨i, op', l, r, rfl⟩ := eq_binary_of_kind h.symm
  obtain rfl := BinaryOp.eq_of_kind_eq h.symm
  exact ⟨i, l, r, rfl⟩

theorem isOver_transpose_iff : x.IsOver .transpose [.transpose] ↔
    ∃ i j a, x = .unary i .transpose (.unary j .transpose a) := by
  constructor
  · rintro ⟨own, below⟩
    obtain ⟨i, y, rfl⟩ := exists_unary_of_kind .transpose (by decide) own
    obtain ⟨j, a, rfl⟩ : ∃ j a, y = .unary j .transpose a :=
      exists_unary_of_kind _ (by decide) (List.singleton_injective below)
    exact ⟨i, j, a, rfl⟩
  · rintro ⟨i, j, a, rfl⟩
    exact ⟨rfl, rfl⟩

theorem isOver_products_iff {f : Elementwise} : x.IsOver (.elementwise f) [.product, .product] ↔
    ∃ i j j' a b c d,
      x = .binary i (.elementwise f) (.binary j .product a b) (.binary j' .product c d) := by
  constructor
  · rintro ⟨own, below⟩
    obtain ⟨i, l, r, rfl⟩ := exists_binary_of_kind (.elementwise f) own
    obtain ⟨left, right⟩ : l.kind = .product ∧ r.kind = .product := by
      simpa [operands] using below
    obtain ⟨j, a, b, rfl⟩ := exists_binary_of_kind .product left
    obtain ⟨j', c, d, rfl⟩ := exists_binary_of_kind .product right
    exact ⟨i, j, j', a, b, c, d, rfl⟩
  · rintro ⟨i, j, j', a, b, c, d, rfl⟩
    exact ⟨rfl, rfl⟩

/-- `y` is of the kind of `x`, and lacks every combination of kinds that `x` lacks and in which nothing
is left to the background. -/
structure Sparing (x y : Expr) : Prop where
  kind_eq : y.kind = x.kind
  lacks : ∀ {k : Kind} {ks : List Kind}, Kind.async ∉ k :: ks → x.Lacks k ks → y.Lacks k ks

theorem sparing_refl (x : Expr) : Sparing x x := ⟨rfl, fun _ => id⟩

theorem Sparing.trans (h : Sparing x y) (h' : Sparing y z) : Sparing x z :=
  ⟨h'.kind_eq.trans h.kind_eq, fun other lacks => h'.lacks other (h.lacks other lacks)⟩

theorem Sparing.of_renewed (h : Renewed Sparing x z) : Sparing x z := by
  cases h with
  | leaf h x => exact sparing_refl _
  | unary operand _ =>
    refine ⟨rfl, fun other lacks => ?_⟩
    obtain ⟨below, own⟩ := lacks_unary.1 lacks
    rw [lacks_unary, operand.kind_eq]
    exact ⟨operand.lacks other below, own⟩
  | binary left right _ =>
    refine ⟨rfl, fun other lacks => ?_⟩
    obtain ⟨belowl, belowr, own⟩ := lacks_binary.1 lacks
    rw [lacks_binary, left.kind_eq, right.kind_eq]
    exact ⟨left.lacks other belowl, right.lacks other belowr, own⟩

theorem sparing_renewal : Renewal Sparing := ⟨sparing_refl, Sparing.trans, Sparing.of_renewed⟩

def Still (k : Kind) (ks : List Kind) (x y : Expr) : Prop := x.Lacks k ks → y = x

theorem still_renewal (k : Kind) (ks : List Kind) : Renewal (Still k ks) where
  refl _ _ := rfl
  trans h h' lacks := by
    obtain rfl := h lacks
    exact h' lacks
  renewed
    | .leaf _ _ => fun _ => rfl
    | .unary operand kept => fun lacks => by
        obtain rfl := operand (lacks_unary.1 lacks).1
        rw [kept rfl]
    | .binary left right kept => fun lacks => by
        obtain ⟨belowl, belowr, -⟩ := lacks_binary.1 lacks
        obtain rfl := left belowl
        obtain rfl := right belowr
        rw [kept rfl rfl]

end Expr

namespace Rules

open LazyMatrix.Expr

variable {source target : Expr} {f : Elementwise} {k : Kind} {ks : List Kind}

/-- A rule for nodes of kind `k` over operands of the kinds `ks`, up to handles: it is for all of them
and for no others, and what it makes of one has none of them but those that were below it. -/
structure Clearing (source target : Expr) (k : Kind) (ks : List Kind) : Prop where
  isOver : ∀ {σ x}, source.Filled σ x → x.IsOver k ks
  exists_filled : ∀ {x}, x.IsOver k ks → ∃ σ, source.Filled σ x
  lacks : ∀ {σ x y}, source.Filled σ x → target.Filled σ y → (∀ c ∈ x.operands, c.Lacks k ks) →
    y.Lacks k ks

theorem Dropping.clearing (h : Dropping source target) :
    Clearing source target .transpose [.transpose] := by
  cases h with
  | @double w =>
    refine ⟨fun hx => ?_, fun place => ?_, fun hx hy below => ?_⟩
    · obtain ⟨i, _, rfl, j, a, rfl, -⟩ := hx
      exact isOver_transpose_iff.2 ⟨i, j, a, rfl⟩
    · obtain ⟨i, j, a, rfl⟩ := isOver_transpose_iff.1 place
      exact ⟨⟨[(w, a)]⟩, i, _, rfl, j, a, rfl, by simp [Filled, Bindings.find?]⟩
    · obtain ⟨i, _, rfl, j, a, rfl, ha⟩ := hx
      obtain rfl := Option.some.inj (ha.symm.trans hy)
      exact (lacks_unary.1 (below _ (.head _))).1

theorem lacks_async_product {a b : Expr} {i j l : Nat} (other : Kind.async ∉ k :: ks)
    (lacks : (binary j .product a b).Lacks k ks) :
    (unary i .async (.binary l .product a b)).Lacks k ks := by
  rw [lacks_unary, lacks_binary]
  rw [lacks_binary] at lacks
  refine ⟨lacks, fun same => ?_⟩
  exact other (by simp [← same.1, UnaryOp.kind])

theorem Detached.lacks {x y : Expr} (h : Detached f x y) (other : Kind.async ∉ k :: ks)
    (below : ∀ c ∈ x.operands, c.Lacks k ks) : y.Lacks k ks := by
  cases h with
  | products =>
    rw [lacks_binary]
    refine ⟨lacks_async_product other (below _ (.head _)),
      lacks_async_product other (below _ (.tail _ (.head _))), fun same => ?_⟩
    exact other (by simp [← same.2, kind, UnaryOp.kind])

theorem Detached.sparing {x y : Expr} (h : Detached f x y) : Sparing x y := by
  refine ⟨?_, fun other lacks => h.lacks other (lacks_iff.1 lacks).1⟩
  cases h with
  | products => rfl

theorem Splitting.clearing (h : Splitting f source target) :
    Clearing source target (.elementwise f) [.product, .product] := by
  refine ⟨fun hx => ?_, fun place => ?_, fun hx hy => (h.detached hx hy).lacks (by simp)⟩
  · cases h with
    | split =>
      obtain ⟨i, _, _, rfl, ⟨j, a, b, rfl, -, -⟩, j', c, d, rfl, -, -⟩ := hx
      exact isOver_products_iff.2 ⟨i, j, j', a, b, c, d, rfl⟩
  · cases h with
    | @split w₁ w₂ w₃ w₄ differ =>
      obtain ⟨i, j, j', a, b, c, d, rfl⟩ := isOver_products_iff.1 place
      have ⟨⟨h₁₂, h₁₃, h₁₄⟩, ⟨h₂₃, h₂₄⟩, h₃₄⟩ : (w₁ ≠ w₂ ∧ w₁ ≠ w₃ ∧ w₁ ≠ w₄) ∧
          (w₂ ≠ w₃ ∧ w₂ ≠ w₄) ∧ w₃ ≠ w₄ := by simpa using differ
      refine ⟨⟨[(w₁, a), (w₂, b), (w₃, c), (w₄, d)]⟩, i, _, _, rfl, ⟨j, a, b, rfl, ?_⟩,
        j', c, d, rfl, ?_⟩ <;>
      simp [Filled, Bindings.find?_cons, h₁₂, h₁₃, h₁₄, h₂₃, h₂₄, h₃₄]

section

variable {t : Template}

theorem Formed.succeeds (formed : Formed t)
    (clearing : Clearing t.source.erase t.target.erase k ks) {x : Expr} (place : x.IsOver k ks) :
    Succeeds (t.toPass.run x) := by
  intro s
  obtain ⟨σ, filled⟩ := clearing.exists_filled place
  have wild := Expr.wild_erase.1 (Form.wild formed).1
  have matched := (wild.filled_erase.1 filled).matched.1
  obtain ⟨y, ran, -⟩ := Template.apply_of_matched formed.closed matched s
  exact ⟨y, ran⟩

theorem Formed.keeps_lacks (formed : Formed t)
    (clearing : Clearing t.source.erase t.target.erase k ks) :
    Pass.Keeps ∅ (fun _ y => y.Lacks k ks) t.everywhere.run := by
  have settles : Pass.Settles ∅ (fun _ y => y.Lacks k ks) t.toPass.run := by
    intro nodes x z hb _ hz renewed
    have below : ∀ c ∈ z.operands, c.Lacks k ks := by
      cases renewed with
      | leaf => simp [operands]
      | unary operand => simpa [operands] using operand
      | binary left right => simpa [operands] using ⟨left, right⟩
    have made := formed.keeps_of_law (fun σ x y => clearing.lacks (σ := σ)) nodes z hb hz
    refine Pass.attempts_orKeep (made.mono fun more y _ hy => ⟨hy.1, hy.2 below⟩) ?_
    intro s m declined more le
    have other : ¬ z.IsOver k ks := fun place => by
      obtain ⟨y, ran⟩ := formed.succeeds clearing place s
      simp [ran] at declined
    exact ⟨le hz, lacks_iff.2 ⟨below, other⟩⟩
  exact settles.everywhere

theorem Formed.everywhere_eq_self (formed : Formed t)
    (clearing : Clearing t.source.erase t.target.erase k ks) {nodes : Set Expr} {s : Session}
    (extant : Extant nodes s.next) {e : Expr} (he : e ∈ nodes) (lacks : e.Lacks k ks) :
    (s.run (t.everywhere.run e).run).1 = .ok e := by
  have once : Pass.Keeps ∅ (Still k ks) t.toPass.run :=
    formed.keeps_of_law fun σ x y hx _ lacks =>
      absurd (clearing.isOver hx) (lacks_iff.1 lacks).2
  have still : Pass.Keeps ∅ (Still k ks) t.everywhere.run :=
    (once.settles (still_renewal k ks)).everywhere
  have succeeds : Succeeds (t.everywhere.run e) :=
    Pass.everywhere_succeeds (Template.unbroken formed.closed) e
  obtain ⟨y, ran⟩ := succeeds s
  obtain ⟨more, -, -, made⟩ := still nodes e (Set.empty_subset nodes) he s extant
  rw [ran, (made y ran).2 lacks]

theorem Splits.keeps_sparing (h : Splits f t) : Pass.Keeps ∅ Sparing t.everywhere.run := by
  have once : Pass.Keeps ∅ Sparing t.toPass.run :=
    h.formed.keeps_of_law fun σ x y hx hy => (Splitting.detached h hx hy).sparing
  exact (once.settles sparing_renewal).everywhere

theorem Splits.keeps_lacks (h : Splits f t) (other : Kind.async ∉ k :: ks) :
    Pass.Keeps ∅ (fun x y => x.Lacks k ks → y.Lacks k ks) t.everywhere.run :=
  h.keeps_sparing.mono fun _ _ sparing => sparing.lacks other

theorem Drops.everywhere_eq_self (h : Drops t) {nodes : Set Expr} {s : Session} (extant : Extant nodes s.next)
    {e : Expr} (he : e ∈ nodes) (lacks : e.Lacks .transpose [.transpose]) :
    (s.run (t.everywhere.run e).run).1 = .ok e :=
  h.hoists.formed.everywhere_eq_self (Dropping.clearing h) extant he lacks

theorem Splits.everywhere_eq_self (h : Splits f t) {nodes : Set Expr} {s : Session} (extant : Extant nodes s.next)
    {e : Expr} (he : e ∈ nodes) (lacks : e.Lacks (.elementwise f) [.product, .product]) :
    (s.run (t.everywhere.run e).run).1 = .ok e :=
  h.formed.everywhere_eq_self (Splitting.clearing h) extant he lacks

end

section

variable {nodes : Set Expr} {e : Expr}

theorem Throughout.keeps_true {p : Pass} (h : Throughout p) :
    Pass.Keeps ∅ (fun _ _ => True) p.run :=
  h.drawn.keeps_exchange.mono fun _ _ _ => trivial

theorem serial_lacks_double (s : Session) {more : List Pass}
    (later : ∀ p ∈ more, Pass.Keeps ∅
      (fun x y => x.Lacks .transpose [.transpose] → y.Lacks .transpose [.transpose]) p.run)
    (he : e ∈ nodes) :
    Attempts nodes (Compiler.run ((s.run serial).1.passes ++ more) e) fun most y =>
      y ∈ most ∧ y.Lacks .transpose [.transpose] := by
  obtain ⟨hoisting, double, rules, hoists, drops⟩ := run_transposeRules s
  have throughout := (throughout_serial s).2
  rw [passes_serial, rules, List.map_append, List.forall_mem_append] at throughout
  rw [passes_serial, rules, List.map_append, List.append_assoc]
  exact Compiler.run_established (fun p hp => (throughout.1 p hp).keeps_true)
    (drops.hoists.formed.keeps_lacks (Dropping.clearing drops)) later (Set.empty_subset nodes) he

theorem serial_lacks (s : Session) (he : e ∈ nodes) :
    Attempts nodes (Compiler.run (s.run serial).1.passes e) fun most y =>
      y ∈ most ∧ y.Lacks .transpose [.transpose] := by
  rw [← List.append_nil (s.run serial).1.passes]
  exact serial_lacks_double s (by simp) he

theorem concurrent_lacks_double (s : Session) (he : e ∈ nodes) :
    Attempts nodes (Compiler.run (s.run concurrent).1.passes e) fun most y =>
      y ∈ most ∧ y.Lacks .transpose [.transpose] := by
  obtain ⟨s', passes⟩ := passes_concurrent s
  obtain ⟨sums, differences, rules, splits, splits'⟩ := run_concurrentProducts s'
  rw [passes, rules]
  refine serial_lacks_double s ?_ he
  simp only [List.map_cons, List.map_nil, List.forall_mem_cons]
  exact ⟨splits.keeps_lacks (by decide), splits'.keeps_lacks (by decide), by simp⟩

theorem concurrent_lacks_products (s : Session) (he : e ∈ nodes) {f : Elementwise}
    (hf : f = .add ∨ f = .sub) :
    Attempts nodes (Compiler.run (s.run concurrent).1.passes e) fun most y =>
      y ∈ most ∧ y.Lacks (.elementwise f) [.product, .product] := by
  obtain ⟨s', passes⟩ := passes_concurrent s
  obtain ⟨sums, differences, rules, splits, splits'⟩ := run_concurrentProducts s'
  have throughout := (throughout_concurrent s).2
  rw [passes, rules, List.forall_mem_append, List.map_cons, List.forall_mem_cons] at throughout
  obtain ⟨serial, sum, -⟩ := throughout
  rw [passes, rules, List.map_cons, List.map_cons, List.map_nil]
  obtain rfl | rfl := hf
  · refine Compiler.run_established (fun p hp => (serial p hp).keeps_true)
      (splits.formed.keeps_lacks (Splitting.clearing splits)) ?_ (Set.empty_subset nodes) he
    rw [List.forall_mem_singleton]
    exact splits'.keeps_lacks (by decide)
  · rw [List.append_cons]
    refine Compiler.run_established (fun p hp => ?_)
      (splits'.formed.keeps_lacks (Splitting.clearing splits')) (by simp) (Set.empty_subset nodes) he
    obtain hp | hp := List.mem_append.1 hp
    · exact (serial p hp).keeps_true
    · exact (List.mem_singleton.1 hp ▸ sum).keeps_true

theorem concurrent_lacks (s : Session) (he : e ∈ nodes) :
    Attempts nodes (Compiler.run (s.run concurrent).1.passes e) fun most y =>
      y ∈ most ∧ y.Lacks .transpose [.transpose] ∧
        y.Lacks (.elementwise .add) [.product, .product] ∧
        y.Lacks (.elementwise .sub) [.product, .product] := by
  have double := concurrent_lacks_double s he
  have products (f : Elementwise) (hf : f = .add ∨ f = .sub) :=
    (concurrent_lacks_products s he hf).mono fun _ _ _ made => made.2
  refine ((double.and (products .add (.inl rfl))).and (products .sub (.inr rfl))).mono ?_
  exact fun more y _ ⟨⟨⟨hy, double⟩, sums⟩, differences⟩ => ⟨hy, double, sums, differences⟩

theorem compile_of_run {c : Compiler} (unvalidated : c.validates = false)
    (throughout : ∀ p ∈ c.passes, Throughout p) {P : Expr → Prop}
    (ran : ∀ nodes : Set Expr, e ∈ nodes →
      Attempts nodes (Compiler.run c.passes e) fun more y => y ∈ more ∧ P y)
    {s : Session} (extant : Extant nodes s.next) (he : e ∈ nodes) :
    ∃ out after, s.run (c.compile e).run = (.ok out, after) ∧ P out ∧
      ∃ more, out ∈ more ∧ ∀ later : Session, after.next ≤ later.next → Extant more later.next := by
  obtain ⟨out, ok⟩ :=
    Compiler.compile_succeeds unvalidated (fun p hp => (throughout p hp).succeeds) e s
  obtain ⟨more, -, extant', made⟩ := Compiler.compile_of_run
    (fun nodes (_ : ∅ ⊆ nodes) => ran nodes) (Set.empty_subset nodes) he s extant
  obtain ⟨mem, held⟩ := made out ok
  exact ⟨out, _, Prod.ext ok rfl, held, more, mem, fun later le => extant'.mono le⟩

/-- Both compilers come to something in which no transpose has a transpose under it, and that of
`concurrent` has no sum or difference of two products either. The rules that take these away have
nothing more to do there: whenever they are run on it, it stays the node it is. -/
theorem compiled_normal (s s' : Session) (nodes : Set Expr) (e : Expr)
    (extant : Extant nodes s'.next) (he : e ∈ nodes) :
    (∃ out after, s'.run ((s.run serial).1.compile e).run = (.ok out, after) ∧
      out.Lacks .transpose [.transpose] ∧
      ∀ drawn later : Session, after.next ≤ later.next →
        (later.run ((drawn.run dropDouble).1.everywhere.run out).run).1 = .ok out) ∧
    ∃ out after, s'.run ((s.run concurrent).1.compile e).run = (.ok out, after) ∧
      out.Lacks .transpose [.transpose] ∧
      out.Lacks (.elementwise .add) [.product, .product] ∧
      out.Lacks (.elementwise .sub) [.product, .product] ∧
      ∀ drawn later : Session, after.next ≤ later.next →
        (later.run ((drawn.run dropDouble).1.everywhere.run out).run).1 = .ok out ∧
        ∀ t ∈ (drawn.run concurrentProducts).1,
          (later.run (t.everywhere.run out).run).1 = .ok out := by
  obtain ⟨unvalidated, throughout⟩ := throughout_serial s
  obtain ⟨unvalidated', throughout'⟩ := throughout_concurrent s
  have ran {nodes : Set Expr} (he : e ∈ nodes) := serial_lacks s he
  have ran' {nodes : Set Expr} (he : e ∈ nodes) := concurrent_lacks s he
  generalize (s.run serial).1 = c at *
  generalize (s.run concurrent).1 = c' at *
  constructor
  · obtain ⟨out, after, compiled, lacks, more, mem, extant'⟩ :=
      compile_of_run unvalidated throughout (fun _ => ran) extant he
    refine ⟨out, after, compiled, lacks, fun drawn later le => ?_⟩
    exact (drops_dropDouble drawn).everywhere_eq_self (extant' later le) mem lacks
  · obtain ⟨out, after, compiled, ⟨double, sums, differences⟩, more, mem, extant'⟩ :=
      compile_of_run unvalidated' throughout' (fun _ => ran') extant he
    refine ⟨out, after, compiled, double, sums, differences, fun drawn later le => ⟨?_, ?_⟩⟩
    · exact (drops_dropDouble drawn).everywhere_eq_self (extant' later le) mem double
    · obtain ⟨t, t', rules, splits, splits'⟩ := run_concurrentProducts drawn
      rw [rules, List.forall_mem_cons, List.forall_mem_singleton]
      exact ⟨splits.everywhere_eq_self (extant' later le) mem sums,
        splits'.everywhere_eq_self (extant' later le) mem differences⟩

theorem flippedProduct_compiled_normal :
    ∃ out after, ({ next := 7 } : Session).run
        ((({} : Session).run concurrent).1.compile flippedProduct).run = (.ok out, after) ∧
      out.Lacks .transpose [.transpose] ∧
      (after.run ((after.run dropDouble).1.everywhere.run out).run).1 = .ok out := by
  obtain ⟨nodes, extant, mem⟩ := flippedProduct_extant
  obtain ⟨-, out, after, compiled, lacks, -, -, rests⟩ :=
    compiled_normal {} { next := 7 } nodes flippedProduct extant mem
  exact ⟨out, after, compiled, lacks, (rests after after le_rfl).1⟩

end

end Rules

end LazyMatrix
