import LazyMatrix.Proofs.Expr.Copying

/-! What validation reports. A node has a flaw of its own if it is a future that failed, a wildcard,
or an operator whose operands announce shapes that do not agree. An expression validates if none of
its nodes has one, and otherwise what is reported is the flaw of the first node that has, operands
coming before the node that holds them and left before right. -/

namespace LazyMatrix

namespace Expr

/-- What is wrong with a node itself, whatever may be wrong below it. -/
inductive Flaw : Expr → Stop Error → Prop where
  | failed {h : Nat} {f : Future} {error : Error} (outcome : f.outcome = .error error) :
      Flaw (.leaf h (.future f)) (.error error)
  | wildcard (h : Nat) (w : Wildcard) :
      Flaw (.leaf h (.wildcard w)) (.fault (.wildcard .validate w))
  | shapes {h : Nat} {f : Elementwise} {l r : Expr} (differ : l.shape ≠ r.shape) :
      Flaw (.binary h (.elementwise f) l r) (.error (.shapes l.shape r.shape))
  | innerSizes {h : Nat} {l r : Expr} (differ : l.shape.cols ≠ r.shape.rows) :
      Flaw (.binary h .product l r) (.error (.innerSizes l.shape.cols r.shape.rows))

def Fine (e : Expr) : Prop := ∀ stop, ¬ Flaw e stop

def validateNode : Expr → Except (Stop Error) Unit
  | .leaf _ x => x.validate
  | .unary _ _ _ => .ok ()
  | .binary _ op l r => (op.check l.shape r.shape).mapError .error

theorem forM_singleton (e : Expr) : forM [e] validateNode = e.validateNode := by
  rw [List.forM_cons, List.forM_nil, bind_pure_unit]

theorem validate_eq_forM (e : Expr) : e.validate = forM e.postorder validateNode := by
  induction e with
  | leaf h x => rw [postorder, forM_singleton, validate, validateNode]
  | unary h op x ih =>
    rw [postorder, List.forM_append, forM_singleton, ← ih, validate]
    exact bind_pure_unit.symm
  | binary h op l r ihl ihr =>
    rw [postorder, List.forM_append, List.forM_append, forM_singleton, ← ihl, ← ihr, validate,
      bind_assoc]
    rfl

theorem validateNode_eq_error_iff {e : Expr} {stop : Stop Error} :
    e.validateNode = .error stop ↔ Flaw e stop := by
  constructor
  · intro h
    match e with
    | .leaf i (.literal d) => cases h
    | .leaf i (.wildcard w) =>
      cases h
      exact .wildcard i w
    | .leaf i (.future f) =>
      cases outcome : f.outcome with
      | ok d => simp [validateNode, Leaf.validate, Promise.validate, outcome] at h
      | error error =>
        obtain rfl : Stop.error error = stop := by
          simpa [validateNode, Leaf.validate, Promise.validate, outcome] using h
        exact .failed outcome
    | .unary i op x => cases h
    | .binary i (.elementwise f) l r =>
      by_cases agree : l.shape = r.shape
      · simp [validateNode, BinaryOp.check, agree] at h
      · obtain rfl : Stop.error (Error.shapes l.shape r.shape) = stop := by
          simpa [validateNode, BinaryOp.check, agree] using h
        exact .shapes agree
    | .binary i .product l r =>
      by_cases agree : l.shape.cols = r.shape.rows
      · simp [validateNode, BinaryOp.check, agree] at h
      · obtain rfl : Stop.error (Error.innerSizes l.shape.cols r.shape.rows) = stop := by
          simpa [validateNode, BinaryOp.check, agree] using h
        exact .innerSizes agree
  · intro flaw
    cases flaw with
    | failed outcome => simp [validateNode, Leaf.validate, Promise.validate, outcome]
    | wildcard => rfl
    | shapes differ => simp [validateNode, BinaryOp.check, differ]
    | innerSizes differ => simp [validateNode, BinaryOp.check, differ]

theorem validateNode_eq_ok_iff {e : Expr} : e.validateNode = .ok () ↔ e.Fine := by
  simp only [Fine, ← validateNode_eq_error_iff]
  cases e.validateNode <;> simp

/-- Validation finds nothing just if every node of the tree is fine, and otherwise it reports the
first that is not. It goes by the tree alone, whatever is shared in the graph. -/
theorem validate_reports_first_flaw (e : Expr) :
    (e.validate = .ok () ↔ ∀ x ∈ e.postorder, x.Fine) ∧
    (∀ stop, e.validate = .error stop ↔ ∃ before x after, e.postorder = before ++ x :: after ∧
      (∀ y ∈ before, y.Fine) ∧ x.Flaw stop) ∧
    ∀ y, Resembles e y → y.validate = e.validate := by
  refine ⟨?_, fun stop => ?_, fun y same => same.validate_eq⟩
  · simp only [validate_eq_forM, forM_eq_ok_iff, validateNode_eq_ok_iff]
  · simp only [validate_eq_forM, forM_eq_error_iff, validateNode_eq_ok_iff,
      validateNode_eq_error_iff]

theorem patchwork_reports_first_flaw :
    patchwork.postorder.map handle = [0, 0, 4, 2, 5, 3, 6] ∧
    patchwork.validate = .error (.error .zeroStride) ∧
    ∀ y, Resembles patchwork y → y.validate = .error (.error .zeroStride) := by
  obtain ⟨-, reports, same⟩ := validate_reports_first_flaw patchwork
  have first : patchwork.validate = .error (.error .zeroStride) := by
    refine (reports _).2 ⟨[paddedColumn, paddedColumn,
      .binary 4 (.elementwise .add) paddedColumn paddedColumn], _, _, rfl, ?_, .failed rfl⟩
    simp [← validateNode_eq_ok_iff, paddedColumn, validateNode, Leaf.validate, BinaryOp.check]
  exact ⟨rfl, first, fun y h => (same y h).trans first⟩

end Expr

end LazyMatrix
