import LazyMatrix.Proofs.Dense.Obtained
import LazyMatrix.Proofs.Expr.Background

/-! The promises that there are. Each was started from an expression, is ready from the beginning,
or copies another, and an expression that one was started from may hold futures of others. However
deep they are nested, what they end in has the shape that was announced, and so has whatever an
expression over them evaluates to. -/

namespace LazyMatrix

namespace Expr

def leaves : Expr → List Leaf
  | .leaf _ x => [x]
  | .unary _ _ x => x.leaves
  | .binary _ _ l r => l.leaves ++ r.leaves

variable {e : Expr}

theorem announced_iff_leaves : e.Announced ↔ ∀ x ∈ e.leaves, x.Announced := by
  induction e with
  | leaf h x => simp [Announced, leaves]
  | unary h op x ih => exact ih
  | binary h op l r ihl ihr => simp [Announced, leaves, or_imp, forall_and, ihl, ihr]

theorem intact_iff_leaves : e.Intact ↔ ∀ x ∈ e.leaves, x.Intact := by
  induction e with
  | leaf h x => simp [Intact, leaves]
  | unary h op x ih => exact ih
  | binary h op l r ihl ihr => simp [Intact, leaves, or_imp, forall_and, ihl, ihr]

end Expr

/-- The promises that can be made when literals hold the matrices of `M`. An evaluation that gives
a promise starts it at a node marked for the background. -/
inductive Promise.Arises (M : Dense → Prop) : Promise → Prop
  | background {x : Expr} {s : Session} {f : Future} (literals : ∀ d, .literal d ∈ x.leaves → M d)
      (futures : ∀ g : Future, .future g ∈ x.leaves → Arises M g.toPromise)
      (started : (s.run x.background.run).1 = .ok f) : Arises M f.toPromise
  | evaluation {x : Expr} {p : Pending} (literals : ∀ d, .literal d ∈ x.leaves → M d)
      (futures : ∀ g : Future, .future g ∈ x.leaves → Arises M g.toPromise)
      (ran : x.eval = .ok (.pending p)) : Arises M p.toPromise
  | ready {d : Dense} (s : Session) (held : M d) : Arises M (s.run (Future.ready d)).1.toPromise
  | copy {f : Future} (s : Session) (h : Arises M f.toPromise) :
      Arises M (s.run f.copy).1.toPromise

/-- Literals hold matrices of `M`, and futures are of promises that can be made from such. -/
structure Expr.Over (M : Dense → Prop) (e : Expr) : Prop where
  literals : ∀ d, .literal d ∈ e.leaves → M d
  futures : ∀ f : Future, .future f ∈ e.leaves → f.toPromise.Arises M

variable {M : Dense → Prop} {e : Expr} {p : Promise}

theorem Future.run_copy_cases (f : Future) (s : Session) :
    (∃ d, f.outcome = .ok d ∧ (s.run f.copy).1.toPromise = .ready d) ∨
      (s.run f.copy).1.toPromise = f.toPromise := by
  rw [Future.copy]
  split
  · next d outcome => exact .inl ⟨d, outcome, rfl⟩
  · exact .inr rfl

/-- Evaluation starts no promises but those of expressions, so these, ready ones and copies of ended
ones are all that need be looked at. -/
theorem Promise.Arises.induct {P : Promise → Prop}
    (started : ∀ {x : Expr} {p : Promise}, (∀ d, .literal d ∈ x.leaves → M d) →
      (∀ f : Future, .future f ∈ x.leaves → P f.toPromise) → x.promise = .ok p → P p)
    (ready : ∀ d, M d → P (.ready d))
    (ended : ∀ p d, P p → p.outcome = .ok d → P (.ready d)) (h : p.Arises M) : P p := by
  induction h with
  | background literals _ made ih => exact started literals ih (Expr.background_eq made)
  | evaluation literals _ ran ih =>
    obtain ⟨h, f, rfl, rfl⟩ | ⟨h, x, q, rfl, made, rfl⟩ := Expr.pending_of_eval ran
    · exact ih f (by simp [Expr.leaves])
    · exact started (x := x) literals ih made
  | ready s held => exact ready _ held
  | @copy f s _ ih =>
    obtain ⟨d, outcome, copied⟩ | copied := f.run_copy_cases s
    · exact copied ▸ ended _ d ih outcome
    · exact copied ▸ ih

namespace Expr

theorem announced_of_futures
    (futures : ∀ f : Future, .future f ∈ e.leaves → f.toPromise.Announced) : e.Announced := by
  refine announced_iff_leaves.2 fun x hx => ?_
  cases x with
  | future f => exact futures f hx
  | literal | wildcard => trivial

theorem intact_of_leaves (literals : ∀ d, .literal d ∈ e.leaves → d.WellFormed)
    (futures : ∀ f : Future, .future f ∈ e.leaves → f.toPromise.Kept) : e.Intact := by
  refine intact_iff_leaves.2 fun x hx => ?_
  cases x with
  | literal d => exact literals d hx
  | future f => exact futures f hx
  | wildcard w => trivial

end Expr

theorem Promise.announced_ready (d : Dense) : (Promise.ready d).Announced := by
  intro d' outcome
  cases outcome
  rfl

theorem Promise.kept_ready {d : Dense} (wf : d.WellFormed) : (Promise.ready d).Kept := by
  intro d' outcome
  cases outcome
  exact ⟨wf, rfl⟩

theorem Promise.Arises.announced (h : p.Arises M) : p.Announced :=
  h.induct (fun _ futures made => Expr.announced_of_promise (Expr.announced_of_futures futures) made)
    (fun d _ => announced_ready d) fun _ d _ _ => announced_ready d

theorem Promise.Arises.kept (formed : ∀ d, M d → d.WellFormed) (h : p.Arises M) : p.Kept := by
  refine h.induct (fun literals futures made => ?_) (fun d held => kept_ready (formed d held))
    fun _ d kept outcome => kept_ready (kept d outcome).1
  exact Expr.kept_of_promise (Expr.intact_of_leaves (fun d hd => formed d (literals d hd)) futures)
    made

namespace Expr

/-- Whether it validates or not, an expression evaluates to nothing but what it announces, and a
promise ends in nothing but what it announced. Over well-formed matrices the results are well
formed, and those laid out anew hold their elements and nothing else. -/
theorem shapes_announced (M : Dense → Prop) :
    (∀ e : Expr, e.Over M → ∀ lit d, e.eval = .ok lit → lit.dense = .ok d →
      lit.shape = e.shape ∧ d.shape = e.shape ∧
      ((∀ m, M m → m.WellFormed) → d.WellFormed ∧ (e.Built → d.Packed))) ∧
    ∀ p : Promise, p.Arises M → ∀ d, p.outcome = .ok d →
      d.shape = p.shape ∧ ((∀ m, M m → m.WellFormed) → d.WellFormed) := by
  refine ⟨fun e based lit d ran read => ?_, fun p arises d outcome => ?_⟩
  · have value := value_eq_ok ran read
    have announced := announced_of_futures fun f hf => (based.futures f hf).announced
    refine ⟨shape_of_eval announced ran, shape_of_value announced value, fun formed => ?_⟩
    exact wellFormed_of_value (intact_of_leaves (fun d hd => formed d (based.literals d hd))
      fun f hf => (based.futures f hf).kept formed) value
  · exact ⟨arises.announced d outcome, fun formed => (arises.kept formed d outcome).1⟩

def rowFuture : Future := ⟨⟨⟨1, 2⟩, .ok (.compact ⟨1, 2⟩ #[1, 2])⟩, 2⟩

def rowPlusColumn : Expr :=
  .binary 4 (.elementwise .add) (.leaf 3 (.future rowFuture)) paddedColumn

theorem rowPlusColumn_over : rowPlusColumn.Over Dense.Obtained := by
  have column : Dense.Obtained ⟨⟨2, 1⟩, 3, #[1, 9, 9, 2]⟩ :=
    .made (@Dense.Made.strided ⟨2, 1⟩ 3 #[1, 9, 9, 2] _ (by decide) (by decide) (by decide) rfl)
  have row : rowFuture.toPromise.Arises Dense.Obtained :=
    .background (x := .unary 1 .transpose paddedColumn) (s := { next := 2 })
      (by simp [leaves, paddedColumn, column]) (by simp [leaves, paddedColumn]) rfl
  constructor
  · simp [leaves, rowPlusColumn, paddedColumn, column]
  · simp [leaves, rowPlusColumn, paddedColumn, row]

theorem rowPlusColumn_shapes_announced : rowPlusColumn.Over Dense.Obtained ∧
    rowPlusColumn.validate = .error (.error (.shapes ⟨1, 2⟩ ⟨2, 1⟩)) ∧
    ∃ lit d, rowPlusColumn.eval = .ok lit ∧ lit.dense = .ok d ∧ lit.shape = ⟨1, 2⟩ ∧
      d.shape = ⟨1, 2⟩ ∧ d.Packed := by
  have based := rowPlusColumn_over
  let sum := Dense.compact ⟨1, 2⟩ (Dense.overlay (· + ·) #[1, 2] #[1, 2])
  have ran : rowPlusColumn.eval = .ok (.ready sum) := rfl
  obtain ⟨shape, shape', storage⟩ := (shapes_announced _).1 _ based (.ready sum) sum ran rfl
  exact ⟨based, rfl, _, _, ran, rfl, shape, shape',
    (storage fun _ => Dense.Obtained.wellFormed).2 trivial⟩

end Expr

end LazyMatrix
