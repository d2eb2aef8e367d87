import LazyMatrix.Expr.Entry
import LazyMatrix.Expr.Eval
import LazyMatrix.Proofs.Expr.Postorder
import LazyMatrix.Proofs.Outcome

/-! Expressions that differ in their handles and cells only. Two of them resemble each other if they
are the same tree; they are isomorphic if they are the same graph as well, so that what is shared in
one is shared in the other. Nothing that an expression announces or comes to depends on its
handles, and a pairing of nodes, no two on one side with one on the other, makes the expressions that
it pairs isomorphic. -/

namespace LazyMatrix

/-- Equal contents. Of a future it counts what it announced and ends in, not which one it is. -/
inductive Leaf.Alike : Leaf → Leaf → Prop where
  | literal (d : Dense) : Alike (.literal d) (.literal d)
  | future {f g : Future} (same : f.toPromise = g.toPromise) : Alike (.future f) (.future g)
  | wildcard (w : Wildcard) : Alike (.wildcard w) (.wildcard w)

theorem Leaf.Alike.shape_eq {a b : Leaf} (h : a.Alike b) : b.shape = a.shape := by
  cases h with
  | literal | wildcard => rfl
  | future same => exact congrArg Promise.shape same.symm

theorem Leaf.Alike.kind_eq {a b : Leaf} (h : a.Alike b) : b.kind = a.kind := by cases h <;> rfl

/-- Equal contents. Of a pending one it counts what was announced and what it ends in, not where. -/
inductive Literal.Alike : Literal → Literal → Prop where
  | ready (d : Dense) : Alike (.ready d) (.ready d)
  | pending {p q : Pending} (same : p.toPromise = q.toPromise) : Alike (.pending p) (.pending q)

theorem Literal.alike_refl (x : Literal) : x.Alike x := by
  cases x with
  | ready d => exact .ready d
  | pending p => exact .pending rfl

theorem Literal.Alike.dense_eq {x y : Literal} (h : x.Alike y) : y.dense = x.dense := by
  cases h with
  | ready d => rfl
  | pending same => rw [dense, dense, same]

theorem Literal.Alike.intoArray_eq {x y : Literal} (h : x.Alike y) : y.intoArray = x.intoArray := by
  cases h with
  | ready d => rfl
  | pending same => rw [intoArray, intoArray, same]

namespace Expr

/-- The same tree, whatever the handles and the cells. -/
inductive Resembles : Expr → Expr → Prop where
  | leaf (h h' : Nat) {a b : Leaf} (alike : a.Alike b) : Resembles (.leaf h a) (.leaf h' b)
  | unary (h h' : Nat) (op : UnaryOp) {x y : Expr} (operand : Resembles x y) :
      Resembles (.unary h op x) (.unary h' op y)
  | binary (h h' : Nat) (op : BinaryOp) {l r l' r' : Expr} (left : Resembles l l')
      (right : Resembles r r') : Resembles (.binary h op l r) (.binary h' op l' r')

/-- The node at the end of a path, which says of each node on the way with which of its operands to
go on. -/
def follow : List Nat → Expr → Option Expr
  | [], e => some e
  | i :: path, e => e.operands[i]?.bind (follow path)

/-- The same graph: the same tree, in which two places hold the same node just if they do in the
other one. -/
structure Isomorphic (x y : Expr) : Prop where
  resembles : Resembles x y
  sharing : ∀ p q, (x.follow p).map handle = (x.follow q).map handle ↔
    (y.follow p).map handle = (y.follow q).map handle

namespace Resembles

variable {x y : Expr}

theorem shape_eq (h : Resembles x y) : y.shape = x.shape := by
  induction h with
  | leaf _ _ alike => exact alike.shape_eq
  | unary _ _ op _ ih => exact congrArg op.shape ih
  | binary _ _ op _ _ ihl ihr => rw [shape_binary, shape_binary, ihl, ihr]

theorem firstWildcard?_eq (h : Resembles x y) : y.firstWildcard? = x.firstWildcard? := by
  induction h with
  | leaf _ _ alike => cases alike <;> rfl
  | unary _ _ _ _ ih => exact ih
  | binary _ _ _ _ _ ihl ihr => rw [firstWildcard?, firstWildcard?, ihl, ihr]

theorem validate_eq (h : Resembles x y) : y.validate = x.validate := by
  induction h with
  | leaf _ _ alike =>
    cases alike with
    | literal | wildcard => rfl
    | future same => simp only [validate, Leaf.validate, same]
  | unary _ _ _ _ ih => exact ih
  | binary _ _ _ left right ihl ihr =>
    rw [validate, validate, ihl, ihr, left.shape_eq, right.shape_eq]

theorem entry_eq (h : Resembles x y) (r c : Nat) : y.entry r c = x.entry r c := by
  induction h generalizing r c with
  | leaf _ _ alike =>
    cases alike with
    | literal | wildcard => rfl
    | future same => simp only [entry, Leaf.entry, same]
  | unary _ _ op _ ih => cases op <;> simp only [entry, ih]
  | binary _ _ op left _ ihl ihr => cases op <;> simp only [entry, ihl, ihr, left.shape_eq]

theorem eval (h : Resembles x y) : Concord Eq Literal.Alike x.eval y.eval := by
  induction h with
  | leaf _ _ alike =>
    cases alike with
    | literal d => exact .ok (.ready d)
    | wildcard w => exact .error rfl
    | future same => exact .ok (.pending same)
  | unary _ _ op operand ih =>
    apply concord_of_eq Literal.alike_refl
    cases op with
    | scale | transpose => exact ih.bind_eq fun _ _ h => by rw [h.dense_eq]
    | async =>
      have value := ih.bind_eq fun _ _ h => h.dense_eq
      simp only [bind] at value
      simp only [Expr.eval, promiseBy, value, operand.firstWildcard?_eq, operand.shape_eq,
        operand.validate_eq]
  | binary _ _ op left _ ihl ihr =>
    apply concord_of_eq Literal.alike_refl
    cases op with
    | elementwise f =>
      refine ihl.bind_eq fun a b h => ihr.bind_eq fun a' b' h' => ?_
      rw [combine, combine, h.intoArray_eq, h'.intoArray_eq, left.shape_eq]
    | product =>
      refine ihl.bind_eq fun a b h => ihr.bind_eq fun a' b' h' => ?_
      rw [h.dense_eq, h'.dense_eq]

end Resembles

inductive Mirrors (ρ : Expr → Expr → Prop) : Expr → Expr → Prop where
  | leaf (h h' : Nat) {a b : Leaf} (alike : a.Alike b) : Mirrors ρ (.leaf h a) (.leaf h' b)
  | unary (h h' : Nat) (op : UnaryOp) {x y : Expr} (operand : ρ x y) :
      Mirrors ρ (.unary h op x) (.unary h' op y)
  | binary (h h' : Nat) (op : BinaryOp) {l r l' r' : Expr} (left : ρ l l') (right : ρ r r') :
      Mirrors ρ (.binary h op l r) (.binary h' op l' r')

theorem Mirrors.mono {ρ ρ' : Expr → Expr → Prop} {x y : Expr} (h : Mirrors ρ x y)
    (le : ∀ a b, ρ a b → ρ' a b) : Mirrors ρ' x y := by
  cases h with
  | leaf h h' alike => exact .leaf h h' alike
  | unary h h' op operand => exact .unary h h' op (le _ _ operand)
  | binary h h' op left right => exact .binary h h' op (le _ _ left) (le _ _ right)

theorem Mirrors.kind_eq {ρ : Expr → Expr → Prop} {x y : Expr} (h : Mirrors ρ x y) :
    y.kind = x.kind := by
  cases h with
  | leaf _ _ alike => exact alike.kind_eq
  | unary | binary => rfl

/-- A one-to-one relation between nodes with handles below `next` and nodes with handles below
`next'`, under which contents are equal and operands are paired with operands. -/
structure Pairing (ρ : Expr → Expr → Prop) (next next' : Nat) : Prop where
  mirrors : ∀ x y, ρ x y → Mirrors ρ x y
  left : ∀ x y x' y', ρ x y → ρ x' y' → x.handle = x'.handle → x = x' ∧ y = y'
  right : ∀ x y x' y', ρ x y → ρ x' y' → y.handle = y'.handle → x = x' ∧ y = y'
  left_lt : ∀ x y, ρ x y → x.handle < next
  right_lt : ∀ x y, ρ x y → y.handle < next'

def Adjoin (ρ : Expr → Expr → Prop) (x y : Expr) (a b : Expr) : Prop := ρ a b ∨ a = x ∧ b = y

namespace Pairing

variable {ρ : Expr → Expr → Prop} {next next' more more' : Nat} {x y : Expr}

theorem mono (h : Pairing ρ next next') (le : next ≤ more) (le' : next' ≤ more') :
    Pairing ρ more more' where
  mirrors := h.mirrors
  left := h.left
  right := h.right
  left_lt a b hab := (h.left_lt a b hab).trans_le le
  right_lt a b hab := (h.right_lt a b hab).trans_le le'

theorem handle_eq_iff (h : Pairing ρ next next') {a b : Expr} (hx : ρ x y) (ha : ρ a b) :
    x.handle = a.handle ↔ y.handle = b.handle :=
  ⟨fun same => congrArg handle (h.left x y a b hx ha same).2,
    fun same => congrArg handle (h.right x y a b hx ha same).1⟩

theorem same_eq (h : Pairing ρ next next') {a b : Expr} (hx : ρ x y) (ha : ρ a b) :
    x.same a = y.same b := by
  rw [Bool.eq_iff_iff]
  simpa [same] using h.handle_eq_iff hx ha

theorem adjoin (h : Pairing ρ next next') (mirrors : Mirrors ρ x y)
    (free : ∀ a b, ρ a b → a.handle ≠ x.handle) (free' : ∀ a b, ρ a b → b.handle ≠ y.handle)
    (lt : x.handle < next) (lt' : y.handle < next') : Pairing (Adjoin ρ x y) next next' where
  mirrors := by
    rintro a b (hab | ⟨rfl, rfl⟩)
    · exact (h.mirrors a b hab).mono fun _ _ => .inl
    · exact mirrors.mono fun _ _ => .inl
  left := by
    rintro a b a' b' (hab | ⟨rfl, rfl⟩) (hab' | ⟨rfl, rfl⟩) same
    · exact h.left a b a' b' hab hab' same
    · exact absurd same (free a b hab)
    · exact absurd same.symm (free a' b' hab')
    · exact ⟨rfl, rfl⟩
  right := by
    rintro a b a' b' (hab | ⟨rfl, rfl⟩) (hab' | ⟨rfl, rfl⟩) same
    · exact h.right a b a' b' hab hab' same
    · exact absurd same (free' a b hab)
    · exact absurd same.symm (free' a' b' hab')
    · exact ⟨rfl, rfl⟩
  left_lt := by
    rintro a b (hab | ⟨rfl, rfl⟩)
    · exact h.left_lt a b hab
    · exact lt
  right_lt := by
    rintro a b (hab | ⟨rfl, rfl⟩)
    · exact h.right_lt a b hab
    · exact lt'

theorem resembles (h : Pairing ρ next next') (hxy : ρ x y) : Resembles x y := by
  induction x generalizing y with
  | leaf i a =>
    cases h.mirrors _ _ hxy with
    | leaf _ _ alike => exact .leaf _ _ alike
  | unary i op x ih =>
    cases h.mirrors _ _ hxy with
    | unary _ _ _ operand => exact .unary _ _ op (ih operand)
  | binary i op l r ihl ihr =>
    cases h.mirrors _ _ hxy with
    | binary _ _ _ left right => exact .binary _ _ op (ihl left) (ihr right)

theorem operands_rel (h : Pairing ρ next next') (hxy : ρ x y) (i : Nat) :
    Option.Rel ρ x.operands[i]? y.operands[i]? := by
  cases h.mirrors _ _ hxy with
  | leaf => exact .none
  | unary _ _ _ operand =>
    match i with
    | 0 => exact .some operand
    | i + 1 => exact .none
  | binary _ _ _ left right =>
    match i with
    | 0 => exact .some left
    | 1 => exact .some right
    | i + 2 => exact .none

theorem follow_rel (h : Pairing ρ next next') (hxy : ρ x y) (path : List Nat) :
    Option.Rel ρ (x.follow path) (y.follow path) := by
  induction path generalizing x y with
  | nil => exact .some hxy
  | cons i path ih =>
    rw [Expr.follow, Expr.follow]
    have paired := h.operands_rel hxy i
    generalize x.operands[i]? = a at paired
    generalize y.operands[i]? = b at paired
    cases paired with
    | none => exact .none
    | some paired => exact ih paired

theorem isomorphic (h : Pairing ρ next next') (hxy : ρ x y) : Isomorphic x y := by
  refine ⟨h.resembles hxy, fun p q => ?_⟩
  have first := h.follow_rel hxy p
  have second := h.follow_rel hxy q
  generalize x.follow p = a, y.follow p = b, x.follow q = c, y.follow q = d at first second
  cases first with
  | none => cases second <;> simp
  | some first =>
    cases second with
    | none => simp
    | some second => simpa using h.handle_eq_iff first second

theorem postorder_paired (h : Pairing ρ next next') (hxy : ρ x y) :
    (∀ a ∈ x.postorder, ∃ b ∈ y.postorder, ρ a b) ∧
      ∀ b ∈ y.postorder, ∃ a ∈ x.postorder, ρ a b := by
  induction x generalizing y with
  | leaf i a =>
    cases h.mirrors _ _ hxy with
    | leaf _ j _ =>
      simp only [mem_postorder_leaf, forall_eq, exists_eq_left]
      exact ⟨hxy, hxy⟩
  | unary i op x ih =>
    cases h.mirrors _ _ hxy with
    | unary _ j _ operand =>
      obtain ⟨there, back⟩ := ih operand
      simp only [mem_postorder_unary]
      refine ⟨?_, ?_⟩
      · rintro a (ha | rfl)
        · obtain ⟨b, hb, hab⟩ := there a ha
          exact ⟨b, .inl hb, hab⟩
        · exact ⟨_, .inr rfl, hxy⟩
      · rintro b (hb | rfl)
        · obtain ⟨a, ha, hab⟩ := back b hb
          exact ⟨a, .inl ha, hab⟩
        · exact ⟨_, .inr rfl, hxy⟩
  | binary i op l r ihl ihr =>
    cases h.mirrors _ _ hxy with
    | binary _ j _ left right =>
      obtain ⟨therel, backl⟩ := ihl left
      obtain ⟨therer, backr⟩ := ihr right
      simp only [mem_postorder_binary]
      refine ⟨?_, ?_⟩
      · rintro a (ha | ha | rfl)
        · obtain ⟨b, hb, hab⟩ := therel a ha
          exact ⟨b, .inl hb, hab⟩
        · obtain ⟨b, hb, hab⟩ := therer a ha
          exact ⟨b, .inr (.inl hb), hab⟩
        · exact ⟨_, .inr (.inr rfl), hxy⟩
      · rintro b (hb | hb | rfl)
        · obtain ⟨a, ha, hab⟩ := backl b hb
          exact ⟨a, .inl ha, hab⟩
        · obtain ⟨a, ha, hab⟩ := backr b hb
          exact ⟨a, .inr (.inl ha), hab⟩
        · exact ⟨_, .inr (.inr rfl), hxy⟩

theorem exists_bijOn (h : Pairing ρ next next') (hxy : ρ x y) :
    ∃ F : Expr → Expr, F x = y ∧ (∀ a ∈ x.postorder, ∀ b, ρ a b ↔ F a = b) ∧
      Set.BijOn F {a | a ∈ x.postorder} {b | b ∈ y.postorder} := by
  obtain ⟨there, back⟩ := h.postorder_paired hxy
  choose! F hF paired using there
  have unique (a : Expr) (ha : a ∈ x.postorder) (b : Expr) : ρ a b ↔ F a = b :=
    ⟨fun hab => (h.left a (F a) a b (paired a ha) hab rfl).2, fun same => same ▸ paired a ha⟩
  refine ⟨F, (unique x x.mem_postorder_self y).1 hxy, unique, hF, ?_, ?_⟩
  · intro a ha b hb same
    exact (h.right a (F a) b (F b) (paired a ha) (paired b hb) (congrArg handle same)).1
  · intro b hb
    obtain ⟨a, ha, hab⟩ := back b hb
    exact ⟨a, ha, (unique a ha b).1 hab⟩

end Pairing

end Expr

end LazyMatrix
