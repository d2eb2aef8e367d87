import LazyMatrix.Expr.Entry
import LazyMatrix.Expr.Text
import LazyMatrix.Proofs.Dense.Relaid
import LazyMatrix.Proofs.Expr.Denotation

/-! Expressions over matrices in other layouts. Whether they validate or not, nothing that can be
read from two such expressions, nor from what they evaluate to, tells them apart. Where an
evaluation hands on the layout of an operand, its results differ in layout again, and in nothing
else. -/

namespace LazyMatrix

structure Promise.Relaid (p q : Promise) : Prop where
  shape_eq : q.shape = p.shape
  outcome : Concord Eq Dense.Relaid p.outcome q.outcome

inductive Literal.Relaid : Literal → Literal → Prop
  | ready {a b : Dense} (h : a.Relaid b) : Relaid (.ready a) (.ready b)
  | pending {p q : Pending} (h : p.toPromise.Relaid q.toPromise) : Relaid (.pending p) (.pending q)

inductive Leaf.Relaid : Leaf → Leaf → Prop
  | literal {a b : Dense} (h : a.Relaid b) : Relaid (.literal a) (.literal b)
  | future {f g : Future} (h : f.toPromise.Relaid g.toPromise) : Relaid (.future f) (.future g)
  | wildcard (w : Wildcard) : Relaid (.wildcard w) (.wildcard w)

/-- The same tree over leaves that differ at most in layout. Handles do not matter, so neither does
which nodes are shared. -/
inductive Expr.Relaid : Expr → Expr → Prop
  | leaf (h h' : Nat) {x y : Leaf} (leaves : x.Relaid y) : Relaid (.leaf h x) (.leaf h' y)
  | unary (h h' : Nat) (op : UnaryOp) {x y : Expr} (operands : Relaid x y) :
      Relaid (.unary h op x) (.unary h' op y)
  | binary (h h' : Nat) (op : BinaryOp) {l r l' r' : Expr} (left : Relaid l l')
      (right : Relaid r r') : Relaid (.binary h op l r) (.binary h' op l' r')

theorem Promise.Relaid.wait {p q : Promise} (h : p.Relaid q) :
    Concord Eq Dense.Relaid p.wait q.wait := by
  obtain ⟨shape, outcome⟩ := p
  obtain ⟨shape', outcome'⟩ := q
  obtain ⟨-, alike⟩ := h
  cases alike with
  | ok h => exact .ok h
  | error h =>
    subst h
    exact .error rfl

theorem Promise.Relaid.validate_eq {p q : Promise} (h : p.Relaid q) : q.validate = p.validate := by
  obtain ⟨shape, outcome⟩ := p
  obtain ⟨shape', outcome'⟩ := q
  obtain ⟨-, alike⟩ := h
  cases alike with
  | ok h => rfl
  | error h =>
    subst h
    rfl

namespace Literal.Relaid

variable {x y : Literal}

theorem dense (h : x.Relaid y) : Concord Eq Dense.Relaid x.dense y.dense := by
  cases h with
  | ready h => exact .ok h
  | pending h => exact h.wait

theorem entry_eq (h : x.Relaid y) (r c : Nat) : y.entry r c = x.entry r c :=
  h.dense.bind_eq fun _ _ h => by rw [h.entry_eq]

theorem toArray_eq (h : x.Relaid y) : y.toArray = x.toArray :=
  h.dense.bind_eq fun _ _ h => h.toArray_eq

theorem intoArray_eq (h : x.Relaid y) : y.intoArray = x.intoArray := by
  cases h with
  | ready h => exact h.intoArray_eq
  | pending h => exact h.wait.bind_eq fun _ _ h => h.toArray_eq

theorem agrees_eq {z w : Literal} (h : x.Relaid y) (h' : z.Relaid w) :
    y.agrees w = x.agrees z :=
  h.dense.bind_eq fun _ _ h => h'.dense.bind_eq fun _ _ h' => h.agrees_eq h'

end Literal.Relaid

theorem Literal.relaid_refl (x : Literal) : x.Relaid x := by
  cases x with
  | ready d => exact .ready (.refl d)
  | pending p => exact .pending ⟨rfl, concord_self .refl p.outcome⟩

namespace Expr

variable {e e' x : Expr}

namespace Relaid

theorem shape_eq (h : e.Relaid e') : e'.shape = e.shape := by
  induction h with
  | leaf _ _ leaves =>
    cases leaves with
    | literal h => exact h.shape_eq
    | future h => exact h.shape_eq
    | wildcard w => rfl
  | unary _ _ op _ ih => exact congrArg op.shape ih
  | binary _ _ op _ _ ihl ihr => rw [shape_binary, shape_binary, ihl, ihr]

theorem validate_eq (h : e.Relaid e') : e'.validate = e.validate := by
  induction h with
  | leaf _ _ leaves =>
    cases leaves with
    | literal h => rfl
    | future h => exact congrArg (Except.mapError Stop.error) h.validate_eq
    | wildcard w => rfl
  | unary _ _ op _ ih => exact ih
  | binary _ _ op left right ihl ihr =>
    rw [validate, validate, ihl, ihr, left.shape_eq, right.shape_eq]

theorem firstWildcard?_eq (h : e.Relaid e') : e'.firstWildcard? = e.firstWildcard? := by
  induction h with
  | leaf _ _ leaves => cases leaves <;> rfl
  | unary _ _ op _ ih => exact ih
  | binary _ _ op _ _ ihl ihr => rw [firstWildcard?, firstWildcard?, ihl, ihr]

theorem toSexp_eq (h : e.Relaid e') : e'.toSexp = e.toSexp := by
  induction h with
  | leaf _ _ leaves =>
    cases leaves with
    | literal h => simp only [toSexp, Leaf.toSexp, h.shape_eq]
    | future h => simp only [toSexp, Leaf.toSexp, h.shape_eq]
    | wildcard w => rfl
  | unary _ _ op _ ih => cases op <;> simp only [toSexp, ih]
  | binary _ _ op _ _ ihl ihr => simp only [toSexp, ihl, ihr]

theorem entry_eq (h : e.Relaid e') (r c : Nat) : e'.entry r c = e.entry r c := by
  induction h generalizing r c with
  | leaf _ _ leaves =>
    cases leaves with
    | literal h => exact congrFun (congrFun h.entry_eq r) c
    | future h => exact h.wait.bind_eq fun _ _ h => by rw [h.entry_eq]
    | wildcard w => rfl
  | unary _ _ op _ ih =>
    cases op with
    | scale k => simp only [entry, ih]
    | transpose => exact ih c r
    | async => exact ih r c
  | binary _ _ op left _ ihl ihr =>
    cases op with
    | elementwise f => simp only [entry, ihl, ihr]
    | product => simp only [entry, ihl, ihr, left.shape_eq]

theorem promiseBy {run run' : Unit → Except Fault Literal} (h : e.Relaid e')
    (ran : Concord Eq Literal.Relaid (run ()) (run' ())) :
    Concord Eq Promise.Relaid (e.promiseBy run) (e'.promiseBy run') := by
  rw [Expr.promiseBy, Expr.promiseBy, h.firstWildcard?_eq, h.validate_eq]
  cases e.firstWildcard? with
  | some w => exact .error rfl
  | none =>
    refine .ok ⟨h.shape_eq, ?_⟩
    cases e.validate with
    | error stop => exact .error rfl
    | ok _ =>
      have read : Concord Eq Dense.Relaid ((run ()).bind Literal.dense)
          ((run' ()).bind Literal.dense) := ran.bind fun _ _ => Literal.Relaid.dense
      generalize (run ()).bind Literal.dense = left at read ⊢
      generalize (run' ()).bind Literal.dense = right at read ⊢
      cases read with
      | ok h => exact .ok h
      | error h => exact .error (congrArg Error.background h)

theorem eval (h : e.Relaid e') : Concord Eq Literal.Relaid e.eval e'.eval := by
  -- only scaling hands on a layout, the other operators give the very same matrix
  induction h with
  | leaf _ _ leaves =>
    cases leaves with
    | literal h => exact .ok (.ready h)
    | future h => exact .ok (.pending h)
    | wildcard w => exact .error rfl
  | unary _ _ op operands ih =>
    cases op with
    | scale k =>
      refine ih.bind fun _ _ values => values.dense.bind fun _ _ h => ?_
      exact (h.map (· * k)).bind fun _ _ h => .ok (.ready h)
    | transpose =>
      refine ih.bind fun _ _ values => values.dense.bind fun _ _ h => ?_
      rw [h.transpose_eq]
      exact concord_self Literal.relaid_refl _
    | async => exact (operands.promiseBy ih).bind fun _ _ h => .ok (.pending h)
  | binary _ _ op left right ihl ihr =>
    cases op with
    | elementwise f =>
      refine ihl.bind fun _ _ valuesl => ihr.bind fun _ _ valuesr => ?_
      rw [combine, combine, valuesl.intoArray_eq, valuesr.intoArray_eq, left.shape_eq]
      exact concord_self Literal.relaid_refl _
    | product =>
      refine ihl.bind fun _ _ valuesl => ihr.bind fun _ _ valuesr => ?_
      refine valuesl.dense.bind fun _ _ hl => valuesr.dense.bind fun _ _ hr => ?_
      rw [hl.gemm_eq hr]
      exact concord_self Literal.relaid_refl _

theorem equals_eq {z w : Expr} (h : e.Relaid e') (h' : z.Relaid w) :
    e'.equals w = e.equals z := by
  rw [equals, equals, h.shape_eq, h'.shape_eq]
  split
  · exact h.eval.bind_eq fun _ _ values => h'.eval.bind_eq fun _ _ values' =>
      values.agrees_eq values'
  · rfl

end Relaid

theorem relaid_refl (e : Expr) : e.Relaid e := by
  induction e with
  | leaf h x =>
    refine .leaf h h ?_
    cases x with
    | literal d => exact .literal (.refl d)
    | future f => exact .future ⟨rfl, concord_self .refl f.outcome⟩
    | wildcard w => exact .wildcard w
  | unary h op x ih => exact .unary h h op ih
  | binary h op l r ihl ihr => exact .binary h h op ihl ihr

def packedColumn : Expr := .leaf 0 (.literal ⟨⟨2, 1⟩, 1, #[1, 2]⟩)

def packedProduct : Expr :=
  .binary 4 .product (.unary 1 .transpose packedColumn)
    (.unary 3 .async (.binary 2 (.elementwise .add) packedColumn packedColumn))

theorem packedColumn_holds : Dense.Holds ⟨⟨2, 1⟩, 1, #[1, 2]⟩ ⟨2, 1⟩
    (Dense.element ⟨⟨2, 1⟩, 3, #[1, 9, 9, 2]⟩) where
  wellFormed := by constructor <;> decide
  shape_eq := rfl
  element_eq := by decide

theorem paddedProduct_relaid : paddedProduct.Relaid packedProduct := by
  have column : paddedColumn.Relaid packedColumn :=
    .leaf 0 0 (.literal (.layout paddedProduct_intact.1 packedColumn_holds))
  exact .binary 4 4 _ (.unary 1 1 _ column) (.unary 3 3 _ (.binary 2 2 _ column column))

end Expr

/-- Two layouts of one matrix read alike, are combined into the same results, and are swept in the
same order over their elements alone; two expressions over them announce and print the same, are
refused for the same error, and evaluate to the same elements or end with the same fault. -/
theorem layout_unobservable :
    (∀ a b : Dense, a.WellFormed → b.Holds a.shape a.element →
      b.row = a.row ∧ b.entry = a.entry ∧ b.toArray = a.toArray ∧ b.intoArray = a.intoArray ∧
      b.transpose = a.transpose ∧
      (∀ c d : Dense, c.Relaid d → b.gemm d = a.gemm c ∧ d.gemm b = c.gemm a ∧
        b.agrees d = a.agrees c ∧ d.agrees b = c.agrees a) ∧
      ∃ values, a.toArray = .ok values ∧ ∀ {σ : Type} (f : σ → Float → Float × σ) (s : σ),
        ∃ left right visited, visited = Dense.visitAll f values.toList s ∧
          a.sweep f s = ⟨left, visited.2, none⟩ ∧ b.sweep f s = ⟨right, visited.2, none⟩ ∧
          left.toArray = .ok visited.1.toArray ∧ right.toArray = .ok visited.1.toArray ∧
          left.Relaid right) ∧
    ∀ e e' : Expr, e.Relaid e' →
      e'.shape = e.shape ∧ e'.validate = e.validate ∧ e'.entry = e.entry ∧ e'.text = e.text ∧
      (∀ width, e'.pretty width = e.pretty width) ∧
      (∀ x : Expr, e'.equals x = e.equals x ∧ x.equals e' = x.equals e) ∧
      Concord Eq Literal.Relaid e.eval e'.eval ∧
      (∀ r c, (do (← e'.eval).entry r c) = (do (← e.eval).entry r c)) ∧
      (do (← e'.eval).toArray) = (do (← e.eval).toArray) ∧
      (do (← e'.eval).intoArray) = (do (← e.eval).intoArray) := by
  refine ⟨fun a b wf held => ?_, fun e e' h => ?_⟩
  · have h : a.Relaid b := .layout wf held
    refine ⟨h.row_eq, h.entry_eq, h.toArray_eq, h.intoArray_eq, h.transpose_eq, fun c d h' => ?_,
      a.values.toArray, ?_, fun f s => ?_⟩
    · exact ⟨h.gemm_eq h', h'.gemm_eq h, h.agrees_eq h', h'.agrees_eq h⟩
    · rw [Dense.toArray_eq wf, Dense.toArray_values]
    · obtain ⟨left, swept, read⟩ := wf.toArray_sweep f s
      obtain ⟨right, swept', read'⟩ := held.wellFormed.toArray_sweep f s
      rw [h.values_eq] at swept' read'
      have alike := (h.sweep f s).1
      rw [swept, swept'] at alike
      exact ⟨left, right, _, rfl, swept, swept', read, read', alike⟩
  · have value := h.eval
    refine ⟨h.shape_eq, h.validate_eq, ?_, ?_, fun width => ?_, fun x => ?_, value, fun r c => ?_,
      ?_, ?_⟩
    · funext r c
      exact h.entry_eq r c
    · rw [Expr.text, Expr.text, h.toSexp_eq]
    · rw [Expr.pretty, Expr.pretty, h.toSexp_eq]
    · exact ⟨h.equals_eq x.relaid_refl, x.relaid_refl.equals_eq h⟩
    · exact value.bind_eq fun _ _ h => h.entry_eq r c
    · exact value.bind_eq fun _ _ h => h.toArray_eq
    · exact value.bind_eq fun _ _ h => h.intoArray_eq

theorem paddedProduct_layout_unobservable :
    Expr.paddedProduct.Relaid Expr.packedProduct ∧ Expr.packedProduct.validate = .ok () ∧
      (do (← Expr.packedProduct.eval).toArray) = (do (← Expr.paddedProduct.eval).toArray) ∧
      Dense.transpose ⟨⟨2, 1⟩, 1, #[1, 2]⟩ = Dense.transpose ⟨⟨2, 1⟩, 3, #[1, 9, 9, 2]⟩ := by
  obtain ⟨-, -, -, -, transpose, -⟩ :=
    layout_unobservable.1 ⟨⟨2, 1⟩, 3, #[1, 9, 9, 2]⟩ ⟨⟨2, 1⟩, 1, #[1, 2]⟩
      Expr.paddedProduct_intact.1 Expr.packedColumn_holds
  obtain ⟨-, valid, -, -, -, -, -, -, values, -⟩ :=
    layout_unobservable.2 _ _ Expr.paddedProduct_relaid
  exact ⟨Expr.paddedProduct_relaid, valid.trans rfl, values, transpose⟩

end LazyMatrix
