import LazyMatrix.Expr.Copy
import LazyMatrix.Proofs.Expr.Postorder
import LazyMatrix.Proofs.Expr.Wildcards
import LazyMatrix.Proofs.Pattern.Inverse

/-! Wildcards in order. The search with a stack comes upon the wildcards of the tree from left to
right, and then upon nothing more. A deep copy has the same wildcards, and a pattern that is filled
in has in place of each wildcard those of the expression that the wildcard stands for. -/

namespace LazyMatrix.Expr

/-- What the table has for a node of `root` has the same wildcards as the node. -/
def Retains (root : Expr) (memo : Memo) : Prop :=
  ∀ x ∈ root.postorder, ∀ y, memo[x.handle]? = some y → y.wildcardLeaves = x.wildcardLeaves

variable {root e y : Expr} {memo : Memo}

theorem retains_empty (root : Expr) : root.Retains {} := by simp [Retains]

theorem Retains.insert (h : root.Retains memo) (consistent : root.Consistent)
    (he : e ∈ root.postorder) (same : y.wildcardLeaves = e.wildcardLeaves) :
    root.Retains (memo.insert e.handle y) := by
  intro x hx z found
  rw [Std.TreeMap.getElem?_insert] at found
  split at found
  · next handle =>
    obtain rfl : e = x := consistent e he x hx (by simpa [Expr.same] using handle)
    exact Option.some.inj found ▸ same
  · exact h x hx z found

theorem wildcardLeaves_copyLeaf (h : Nat) (a : Leaf) (s : Session) :
    (s.run (copyLeaf h a)).1.wildcardLeaves = (leaf h a).wildcardLeaves := by
  cases a <;> rfl

theorem retains_copyInto (consistent : root.Consistent) (he : e ∈ root.postorder)
    (h : root.Retains memo) (s : Session) :
    (s.run (copyInto e memo)).1.1.wildcardLeaves = e.wildcardLeaves ∧
      root.Retains (s.run (copyInto e memo)).1.2 := by
  induction e generalizing memo s with
  | leaf i a =>
    rw [copyInto]
    cases found : memo[i]? with
    | some done => exact ⟨h _ he done found, h⟩
    | none =>
      have same := wildcardLeaves_copyLeaf i a s
      exact ⟨same, h.insert consistent he same⟩
  | unary i op a ih =>
    rw [copyInto]
    cases found : memo[i]? with
    | some done => exact ⟨h _ he done found, h⟩
    | none =>
      obtain ⟨same, kept⟩ := ih (mem_postorder_operand he (by simp [operands])) h s
      exact ⟨same, kept.insert consistent he same⟩
  | binary i op l r ihl ihr =>
    rw [copyInto]
    cases found : memo[i]? with
    | some done => exact ⟨h _ he done found, h⟩
    | none =>
      -- the right operand starts from the table that the left one leaves
      obtain ⟨samel, kept⟩ := ihl (mem_postorder_operand he (by simp [operands])) h s
      obtain ⟨samer, kept⟩ := ihr (mem_postorder_operand he (by simp [operands])) kept
        (s.run (copyInto l memo)).2
      have same := congrArg₂ (· ++ ·) samel samer
      exact ⟨same, kept.insert consistent he same⟩

theorem wildcardLeaves_copy (consistent : e.Consistent) (s : Session) :
    (s.run e.copy).1.wildcardLeaves = e.wildcardLeaves :=
  (retains_copyInto consistent e.mem_postorder_self (retains_empty e) s).1

/-- The calls on an expression yield the wildcards of its tree from left to right, each as often as
the tree has it, and nothing after these. Copying does not change that, and filling in puts in place
of each wildcard those of the expression it is bound to. -/
theorem wildcards_in_order (e : Expr) :
    (e.wildcards = e.wildcardLeaves ∧
      ∀ n, (Cursor.start e).yielded n = e.wildcardLeaves[n]?) ∧
    (e.Consistent → ∀ s : Session, (s.run e.copy).1.wildcards = e.wildcards) ∧
    ∀ (σ : Bindings) (f : Wildcard → Expr), (∀ w ∈ e.wildcards, σ.find? w = some (f w)) →
      ∀ s : Session, ∃ y, (s.run (e.construct σ).run).1 = .ok y ∧
        y.wildcards = e.wildcards.flatMap fun w => (f w).wildcards := by
  refine ⟨⟨e.wildcards_eq, fun n => ?_⟩, fun consistent s => ?_, fun σ f bound s => ?_⟩
  · rw [Cursor.yielded_eq, Cursor.start, List.flatMap_singleton]
  · rw [wildcards_eq, wildcards_eq, wildcardLeaves_copy consistent]
  · rw [wildcards_eq] at bound
    have defined : ∀ w ∈ e.wildcardLeaves, σ.find? w ≠ none := fun w hw => by simp [bound w hw]
    obtain ⟨y, made, filled⟩ := construct_filled defined s
    refine ⟨y, made, ?_⟩
    simp only [wildcards_eq, filled.wildcardLeaves_eq bound]

def wildSum : Expr :=
  .binary 2 (.elementwise .add) (.leaf 0 (.wildcard ⟨0, "?a"⟩)) (.leaf 1 (.wildcard ⟨1, "?b"⟩))

def wildSquare : Expr := .binary 3 .product wildSum wildSum

theorem wildSquare_consistent : wildSquare.Consistent := by
  have first := (extant_empty 0).insert (x := .leaf 0 (.wildcard ⟨0, "?a"⟩)) rfl
    (by simp [operands])
  have second := first.insert (x := .leaf 1 (.wildcard ⟨1, "?b"⟩)) rfl (by simp [operands])
  have sum := second.insert (x := wildSum) rfl (by simp [operands, wildSum])
  have square := sum.insert (x := wildSquare) rfl (by simp [operands, wildSquare])
  exact consistent_of_extant square (Set.mem_insert _ _)

theorem wildSquare_wildcards_in_order :
    (Cursor.start wildSquare).yielded 3 = some ⟨1, "?b"⟩ ∧
    (Cursor.start wildSquare).yielded 4 = none ∧ wildSquare.Consistent ∧
    (({ next := 4 } : Session).run wildSquare.copy).1.wildcards =
      [⟨0, "?a"⟩, ⟨1, "?b"⟩, ⟨0, "?a"⟩, ⟨1, "?b"⟩] ∧
    ∃ y, (({ next := 4 } : Session).run (wildSquare.construct
        ⟨[(⟨0, "?a"⟩, wildSum), (⟨1, "?b"⟩, paddedColumn)]⟩).run).1 = .ok y ∧
      y.wildcards = [⟨0, "?a"⟩, ⟨1, "?b"⟩, ⟨0, "?a"⟩, ⟨1, "?b"⟩] := by
  have square : wildSquare.wildcards = [⟨0, "?a"⟩, ⟨1, "?b"⟩, ⟨0, "?a"⟩, ⟨1, "?b"⟩] :=
    wildSquare.wildcards_eq
  have sum : wildSum.wildcards = [⟨0, "?a"⟩, ⟨1, "?b"⟩] := wildSum.wildcards_eq
  have column : paddedColumn.wildcards = [] := paddedColumn.wildcards_eq
  obtain ⟨⟨-, calls⟩, copies, fillings⟩ := wildcards_in_order wildSquare
  refine ⟨calls 3, calls 4, wildSquare_consistent, ?_, ?_⟩
  · rw [copies wildSquare_consistent, square]
  · obtain ⟨y, made, found⟩ := fillings ⟨[(⟨0, "?a"⟩, wildSum), (⟨1, "?b"⟩, paddedColumn)]⟩
      (fun w => if w.index = 0 then wildSum else paddedColumn)
      (by simp [square, Bindings.find?]) { next := 4 }
    refine ⟨y, made, ?_⟩
    simp [found, square, sum, column]

end LazyMatrix.Expr
