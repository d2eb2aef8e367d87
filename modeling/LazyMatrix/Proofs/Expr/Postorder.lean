import LazyMatrix.Proofs.Expr.Nodes

/-! The nodes of an expression in the order in which a walk leaves them: operands before the node
that holds them, a left operand before a right one. A shared node is listed as often as the tree
has it; `distinct` keeps the first of its places. -/

namespace LazyMatrix.Expr

def postorder : Expr → List Expr
  | .leaf h x => [.leaf h x]
  | .unary h op x => x.postorder ++ [.unary h op x]
  | .binary h op l r => l.postorder ++ r.postorder ++ [.binary h op l r]

@[simp] theorem mem_postorder_leaf {x : Expr} {h : Nat} {a : Leaf} :
    x ∈ (leaf h a).postorder ↔ x = leaf h a := List.mem_singleton

@[simp] theorem mem_postorder_unary {x y : Expr} {h : Nat} {op : UnaryOp} :
    x ∈ (unary h op y).postorder ↔ x ∈ y.postorder ∨ x = unary h op y := by simp [postorder]

@[simp] theorem mem_postorder_binary {x l r : Expr} {h : Nat} {op : BinaryOp} :
    x ∈ (binary h op l r).postorder ↔
      x ∈ l.postorder ∨ x ∈ r.postorder ∨ x = binary h op l r := by simp [postorder]

theorem mem_postorder_self (e : Expr) : e ∈ e.postorder := by
  cases e <;> simp

theorem mem_postorder_trans {x y z : Expr} (h : x ∈ y.postorder) (h' : y ∈ z.postorder) :
    x ∈ z.postorder := by
  induction z with
  | leaf i a =>
    obtain rfl := mem_postorder_leaf.1 h'
    exact h
  | unary i op a ih =>
    obtain h' | rfl := mem_postorder_unary.1 h'
    · exact mem_postorder_unary.2 (.inl (ih h'))
    · exact h
  | binary i op l r ihl ihr =>
    obtain h' | h' | rfl := mem_postorder_binary.1 h'
    · exact mem_postorder_binary.2 (.inl (ihl h'))
    · exact mem_postorder_binary.2 (.inr (.inl (ihr h')))
    · exact h

theorem mem_postorder_of_operand {e x : Expr} (h : x ∈ e.operands) : x ∈ e.postorder := by
  cases e with
  | leaf i a => simp [operands] at h
  | unary i op a =>
    obtain rfl := List.mem_singleton.1 h
    simp [mem_postorder_self]
  | binary i op l r =>
    obtain rfl | rfl : x = l ∨ x = r := by simpa [operands] using h
    · simp [mem_postorder_self]
    · simp [mem_postorder_self]

theorem mem_postorder_operand {root e x : Expr} (he : e ∈ root.postorder) (h : x ∈ e.operands) :
    x ∈ root.postorder :=
  mem_postorder_trans (mem_postorder_of_operand h) he

theorem of_mem_postorder {P : Expr → Prop} (down : ∀ x, P x → ∀ y ∈ x.operands, P y) {e x : Expr}
    (he : P e) (hx : x ∈ e.postorder) : P x := by
  induction e with
  | leaf h a => exact mem_postorder_leaf.1 hx ▸ he
  | unary h op a ih =>
    obtain hx | rfl := mem_postorder_unary.1 hx
    · exact ih (down _ he a (by simp [operands])) hx
    · exact he
  | binary h op l r ihl ihr =>
    obtain hx | hx | rfl := mem_postorder_binary.1 hx
    · exact ihl (down _ he l (by simp [operands])) hx
    · exact ihr (down _ he r (by simp [operands])) hx
    · exact he

theorem size_lt_of_operand {e x : Expr} (h : x ∈ e.operands) : x.size < e.size := by
  cases e with
  | leaf i a => simp [operands] at h
  | unary i op a =>
    obtain rfl := List.mem_singleton.1 h
    simp [size]
  | binary i op l r =>
    obtain rfl | rfl : x = l ∨ x = r := by simpa [operands] using h
    all_goals
      simp only [size]
      omega

theorem not_mem_postorder_operand {e x : Expr} (h : x ∈ e.operands) : e ∉ x.postorder := by
  intro mem
  have smaller : e.size ≤ x.size :=
    of_mem_postorder (fun y le z hz => (size_lt_of_operand hz).le.trans le) le_rfl mem
  exact absurd (size_lt_of_operand h) (by omega)

/-- A handle stands for one node, wherever it occurs in the expression. -/
def Consistent (e : Expr) : Prop :=
  ∀ x ∈ e.postorder, ∀ y ∈ e.postorder, x.same y → x = y

theorem mem_of_extant {nodes : Set Expr} {next : Nat} (extant : Extant nodes next) {e x : Expr}
    (he : e ∈ nodes) (hx : x ∈ e.postorder) : x ∈ nodes :=
  of_mem_postorder extant.operand_mem he hx

theorem consistent_of_extant {nodes : Set Expr} {next : Nat} (extant : Extant nodes next)
    {e : Expr} (he : e ∈ nodes) : e.Consistent :=
  fun _ hx _ hy same => extant.eq_of_same (mem_of_extant extant he hx) (mem_of_extant extant he hy)
    same

def unseen (seen : Nat → Bool) : List Expr → List Expr
  | [] => []
  | x :: rest =>
      if seen x.handle then unseen seen rest
      else x :: unseen (fun h => x.handle == h || seen h) rest

def distinct (e : Expr) : List Expr := unseen (fun _ => false) e.postorder

def seenAfter (seen : Nat → Bool) (nodes : List Expr) (h : Nat) : Bool :=
  seen h || nodes.any fun x => x.handle == h

variable {seen : Nat → Bool}

theorem seenAfter_nil : seenAfter seen [] = seen := by
  funext h
  simp [seenAfter]

theorem seenAfter_cons (x : Expr) (rest : List Expr) :
    seenAfter (fun h => x.handle == h || seen h) rest = seenAfter seen (x :: rest) := by
  funext h
  simp only [seenAfter, List.any_cons]
  cases x.handle == h <;> simp

theorem seenAfter_cons_of_seen {x : Expr} (h : seen x.handle = true) (rest : List Expr) :
    seenAfter seen (x :: rest) = seenAfter seen rest := by
  funext i
  simp only [seenAfter, List.any_cons]
  by_cases same : x.handle = i
  · subst same
    simp [h]
  · rw [beq_eq_false_iff_ne.2 same, Bool.false_or]

theorem seenAfter_unseen (nodes : List Expr) :
    seenAfter seen (unseen seen nodes) = seenAfter seen nodes := by
  induction nodes generalizing seen with
  | nil => rfl
  | cons x rest ih =>
    rw [unseen]
    split
    · next h => rw [ih, seenAfter_cons_of_seen h]
    · rw [← seenAfter_cons, ih, seenAfter_cons]

end LazyMatrix.Expr
