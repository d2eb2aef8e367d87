import LazyMatrix.Expr.Copy
import LazyMatrix.Proofs.Building
import LazyMatrix.Proofs.Expr.Announced
import LazyMatrix.Proofs.Expr.Isomorphism

/-! Deep copies are isomorphic to what they are copies of. The table that goes through the recursion
pairs nodes that are done with their copies, and it gains the copy of a node only after those of the
nodes below it, so no node is copied twice and no two nodes have one copy. Nothing but a wildcard is
its own copy. -/

namespace LazyMatrix

variable {nodes : Set Expr} {base next : Nat} {s s' : Session}

/-- Cells are numbered along with the nodes, so a cell that is in use is below the next free number
as well. -/
structure Numbered (nodes : Set Expr) (next : Nat) : Prop extends Extant nodes next where
  cell_lt : ∀ h f, .leaf h (.future f) ∈ nodes → f.cell < next

def Unused (nodes : Set Expr) (n : Nat) : Prop :=
  (∀ x ∈ nodes, x.handle ≠ n) ∧ ∀ h f, .leaf h (.future f) ∈ nodes → f.cell ≠ n

theorem numbered_empty (next : Nat) : Numbered ∅ next := ⟨extant_empty next, by simp⟩

theorem Numbered.insert (numbered : Numbered nodes next) {x : Expr} (le : next ≤ x.handle)
    (operands : ∀ y ∈ x.operands, y ∈ nodes)
    (cell : ∀ h f, x = .leaf h (.future f) → f.cell ≤ x.handle) :
    Numbered (insert x nodes) (x.handle + 1) := by
  refine ⟨(numbered.mono le).insert rfl operands, ?_⟩
  rintro h f (same | hf)
  · exact Nat.lt_succ_of_le (cell h f same.symm)
  · exact (numbered.cell_lt h f hf).trans_le (le.trans (Nat.le_succ _))

theorem Numbered.unused (numbered : Numbered nodes next) {n : Nat} (le : next ≤ n) :
    Unused nodes n :=
  ⟨fun x hx => ((numbered.handle_lt x hx).trans_le le).ne,
    fun h f hf => ((numbered.cell_lt h f hf).trans_le le).ne⟩

theorem Future.run_copy {f : Future} (announced : f.toPromise.Announced) (s : Session) :
    s.run f.copy = ({ f with cell := s.next }, { s with next := s.next + 1 }) := by
  obtain ⟨⟨shape, outcome⟩, cell⟩ := f
  cases outcome with
  | error error => rfl
  | ok d =>
    obtain rfl : d.shape = shape := announced d rfl
    rfl

namespace Expr

variable {new new' : Nat → Prop} {ρ ρ' : Expr → Expr → Prop} {x y : Expr} {memo memo' : Memo}

/-- A wildcard and itself, or a node and another with the same contents under a new number, over
operands that are related to its own. -/
inductive Copied (new : Nat → Prop) (ρ : Expr → Expr → Prop) : Expr → Expr → Prop where
  | literal (h h' : Nat) (d : Dense) (handle : new h') :
      Copied new ρ (.leaf h (.literal d)) (.leaf h' (.literal d))
  | future (h h' : Nat) {f g : Future} (same : f.toPromise = g.toPromise) (cell : new g.cell)
      (handle : new h') : Copied new ρ (.leaf h (.future f)) (.leaf h' (.future g))
  | wildcard (h : Nat) (w : Wildcard) :
      Copied new ρ (.leaf h (.wildcard w)) (.leaf h (.wildcard w))
  | unary (h h' : Nat) (op : UnaryOp) {x y : Expr} (operand : ρ x y) (handle : new h') :
      Copied new ρ (.unary h op x) (.unary h' op y)
  | binary (h h' : Nat) (op : BinaryOp) {l r l' r' : Expr} (left : ρ l l') (right : ρ r r')
      (handle : new h') : Copied new ρ (.binary h op l r) (.binary h' op l' r')

namespace Copied

theorem mirrors (h : Copied new ρ x y) : Mirrors ρ x y := by
  cases h with
  | literal h h' d => exact .leaf h h' (.literal d)
  | future h h' same => exact .leaf h h' (.future same)
  | wildcard h w => exact .leaf h h (.wildcard w)
  | unary h h' op operand => exact .unary h h' op operand
  | binary h h' op left right => exact .binary h h' op left right

theorem mono (h : Copied new ρ x y) (le : ∀ n, new n → new' n)
    (operands : ∀ a ∈ x.operands, ∀ b, ρ a b → ρ' a b) : Copied new' ρ' x y := by
  cases h with
  | literal h h' d handle => exact .literal h h' d (le _ handle)
  | future h h' same cell handle => exact .future h h' same (le _ cell) (le _ handle)
  | wildcard h w => exact .wildcard h w
  | unary h h' op operand handle =>
    exact .unary h h' op (operands _ (by simp [Expr.operands]) _ operand) (le _ handle)
  | binary h h' op left right handle =>
    exact .binary h h' op (operands _ (by simp [Expr.operands]) _ left)
      (operands _ (by simp [Expr.operands]) _ right) (le _ handle)

theorem eq_or_new (h : Copied new ρ x y) : y = x ∨ new y.handle := by
  cases h with
  | wildcard => exact .inl rfl
  | literal | future | unary | binary => exact .inr ‹_›

end Copied

def Recorded (nodes : Set Expr) (memo : Memo) (x y : Expr) : Prop :=
  x ∈ nodes ∧ memo[x.handle]? = some y

theorem recorded_insert (extant : Extant nodes next) (hx : x ∈ nodes)
    (missing : memo[x.handle]? = none) (y : Expr) :
    Recorded nodes (memo.insert x.handle y) = Adjoin (Recorded nodes memo) x y := by
  funext a b
  rw [eq_iff_iff, Recorded, Adjoin, Recorded, Std.TreeMap.getElem?_insert]
  split
  · next same =>
    have same : x.handle = a.handle := by simpa using same
    constructor
    · rintro ⟨ha, found⟩
      exact .inr ⟨extant.handle_injOn ha hx same.symm, (Option.some.inj found).symm⟩
    · rintro (⟨-, found⟩ | ⟨rfl, rfl⟩)
      · simp [← same, missing] at found
      · exact ⟨hx, rfl⟩
  · next other =>
    refine ⟨.inl, ?_⟩
    rintro (recorded | ⟨rfl, rfl⟩)
    · exact recorded
    · simp at other

/-- The table while copies are made with numbers from `base` on, `next` being the next one. -/
structure Copying (nodes : Set Expr) (base : Nat) (memo : Memo) (next : Nat) : Prop where
  le : base ≤ next
  pairing : Pairing (Recorded nodes memo) base next
  copied : ∀ x y, Recorded nodes memo x y → Copied (base ≤ ·) (Recorded nodes memo) x y
  cell_lt : ∀ x h f, Recorded nodes memo x (.leaf h (.future f)) → f.cell < next

theorem copying_empty (nodes : Set Expr) (base : Nat) : Copying nodes base {} base := by
  have none (x y : Expr) : ¬ Recorded nodes {} x y := by simp [Recorded]
  exact ⟨le_rfl, by constructor <;> simp [none], by simp [none], by simp [none]⟩

theorem Copying.insert (c : Copying nodes base memo next) (extant : Extant nodes base)
    (hx : x ∈ nodes) (missing : memo[x.handle]? = none)
    (copied : Copied (next ≤ ·) (Recorded nodes memo) x y) {more : Nat} (le : next ≤ more)
    (lt : y.handle < more) (cell : ∀ h f, y = .leaf h (.future f) → f.cell < more) :
    Copying nodes base (memo.insert x.handle y) more := by
  have old (a b : Expr) (hab : Recorded nodes memo a b) : a.handle ≠ x.handle := by
    intro same
    have found := hab.2
    simp [same, missing] at found
  -- a copy is either the wildcard itself, and then no other node is copied to it, or a new node
  have old' (a b : Expr) (hab : Recorded nodes memo a b) : b.handle ≠ y.handle := by
    obtain rfl | new := copied.eq_or_new
    · obtain rfl | new := (c.copied a b hab).eq_or_new
      · exact old b b hab
      · exact ((extant.handle_lt y hx).trans_le new).ne'
    · exact ((c.pairing.right_lt a b hab).trans_le new).ne
  have mono : Recorded nodes memo ≤ Adjoin (Recorded nodes memo) x y := fun _ _ => .inl
  refine ⟨c.le.trans le, ?_, ?_, ?_⟩
  · rw [recorded_insert extant hx missing]
    exact (c.pairing.mono le_rfl le).adjoin copied.mirrors old old' (extant.handle_lt x hx) lt
  · rw [recorded_insert extant hx missing]
    rintro a b (hab | ⟨rfl, rfl⟩)
    · exact (c.copied a b hab).mono (fun _ => id) fun a _ b => mono a b
    · exact copied.mono (fun _ => c.le.trans) fun a _ b => mono a b
  · rw [recorded_insert extant hx missing]
    rintro a h f (hab | ⟨-, same⟩)
    · exact (c.cell_lt a h f hab).trans_le le
    · exact cell h f same.symm

theorem Copying.numbered (c : Copying nodes base memo next) (numbered : Numbered nodes base) :
    Numbered (nodes ∪ {y | ∃ x, Recorded nodes memo x y}) next := by
  -- a copy with the handle of a node that there was is a wildcard, and so that very node
  have old (a x b : Expr) (ha : a ∈ nodes) (hxb : Recorded nodes memo x b)
      (same : a.handle = b.handle) : a = b := by
    obtain rfl | new := (c.copied x b hxb).eq_or_new
    · exact numbered.handle_injOn ha hxb.1 same
    · exact absurd (numbered.handle_lt a ha) (by omega)
  refine ⟨⟨?_, ?_, ?_⟩, ?_⟩
  · rintro y (hy | ⟨x, hxy⟩) z hz
    · exact .inl (numbered.operand_mem y hy z hz)
    · cases c.copied x y hxy with
      | literal | future | wildcard => simp [operands] at hz
      | unary h h' op operand =>
        obtain rfl := List.mem_singleton.1 hz
        exact .inr ⟨_, operand⟩
      | @binary h h' op l r l' r' left right =>
        obtain rfl | rfl : z = l' ∨ z = r' := by simpa [operands] using hz
        · exact .inr ⟨_, left⟩
        · exact .inr ⟨_, right⟩
  · rintro a (ha | ⟨x, hxa⟩) b (hb | ⟨z, hzb⟩) same
    · exact numbered.handle_injOn ha hb same
    · exact old a z b ha hzb same
    · exact (old b x a hb hxa same.symm).symm
    · exact (c.pairing.right x a z b hxa hzb same).2
  · rintro y (hy | ⟨x, hxy⟩)
    · exact (numbered.handle_lt y hy).trans_le c.le
    · exact c.pairing.right_lt x y hxy
  · rintro h f (hf | ⟨x, hxf⟩)
    · exact (numbered.cell_lt h f hf).trans_le c.le
    · exact c.cell_lt x h f hxf

structure Copies (nodes : Set Expr) (base : Nat) (e : Expr) (memo : Memo)
    (result : (Expr × Memo) × Session) : Prop where
  copying : Copying nodes base result.1.2 result.2.next
  root : Recorded nodes result.1.2 e result.1.1
  kept : Recorded nodes memo ≤ Recorded nodes result.1.2
  frame : ∀ x ∈ nodes, x ∉ e.postorder → result.1.2[x.handle]? = memo[x.handle]?

theorem Copying.copies_of_found {e : Expr} (c : Copying nodes base memo s.next) (he : e ∈ nodes)
    (found : memo[e.handle]? = some y) : Copies nodes base e memo ((y, memo), s) :=
  ⟨c, ⟨he, found⟩, le_rfl, fun _ _ _ => rfl⟩

theorem Copying.copies_of_missing {e : Expr} (c : Copying nodes base memo' s.next)
    (extant : Extant nodes base) (he : e ∈ nodes)
    (kept : Recorded nodes memo ≤ Recorded nodes memo')
    (frame : ∀ x ∈ nodes, x = e ∨ x ∉ e.postorder → memo'[x.handle]? = memo[x.handle]?)
    (missing : memo[e.handle]? = none) (copied : Copied (s.next ≤ ·) (Recorded nodes memo') e y)
    (le : s.next ≤ s'.next) (lt : y.handle < s'.next)
    (cell : ∀ h f, y = .leaf h (.future f) → f.cell < s'.next) :
    Copies nodes base e memo ((y, memo'.insert e.handle y), s') := by
  have missing' : memo'[e.handle]? = none := (frame e he (.inl rfl)).trans missing
  refine ⟨c.insert extant he missing' copied le lt cell, ⟨he, by simp⟩, ?_, fun x hx below => ?_⟩
  · rw [recorded_insert extant he missing']
    exact fun a b hab => .inl (kept a b hab)
  · have other : e.handle ≠ x.handle := fun same =>
      below (extant.handle_injOn he hx same ▸ e.mem_postorder_self)
    rw [Std.TreeMap.getElem?_insert, if_neg (by simpa using other), frame x hx (.inr below)]

theorem copyLeaf_copied {h : Nat} {a : Leaf} (announced : a.Announced) (lt : h < s.next) :
    ∃ y s', s.run (copyLeaf h a) = (y, s') ∧ Copied (s.next ≤ ·) ρ (.leaf h a) y ∧
      s.next ≤ s'.next ∧ y.handle < s'.next ∧
      ∀ i f, y = .leaf i (.future f) → f.cell < s'.next := by
  cases a with
  | literal d =>
    exact ⟨_, _, rfl, .literal h s.next d le_rfl, Nat.le_succ s.next, Nat.lt_succ_self s.next,
      by simp⟩
  | wildcard w => exact ⟨_, _, rfl, .wildcard h w, le_rfl, lt, by simp⟩
  | future f =>
    rw [copyLeaf, Session.run_bind, Future.run_copy announced]
    refine ⟨_, _, rfl, .future h (s.next + 1) rfl le_rfl (Nat.le_succ s.next), ?_, ?_, ?_⟩
    · exact Nat.le_add_right s.next 2
    · exact Nat.lt_succ_self (s.next + 1)
    · rintro _ _ ⟨⟩
      exact Nat.lt_succ_of_le (Nat.le_succ s.next)

theorem copyInto_copies (extant : Extant nodes base) {e : Expr} (he : e ∈ nodes)
    (announced : e.Announced) (c : Copying nodes base memo s.next) :
    Copies nodes base e memo (s.run (copyInto e memo)) := by
  -- no node is below its own operands, so by `frame` its entry is missing until it is made
  induction e generalizing memo s with
  | leaf h a =>
    rw [copyInto]
    cases missing : memo[h]? with
    | some done => exact c.copies_of_found he missing
    | none =>
      have lt : h < s.next := (extant.handle_lt _ he).trans_le c.le
      obtain ⟨y, s', ran, copied, le, lt, cell⟩ :=
        copyLeaf_copied (ρ := Recorded nodes memo) announced lt
      rw [Session.run_bind, ran]
      exact c.copies_of_missing extant he le_rfl (fun _ _ _ => rfl) missing copied le lt cell
  | unary h op a ih =>
    rw [copyInto]
    cases missing : memo[h]? with
    | some done => exact c.copies_of_found he missing
    | none =>
      have below := ih (extant.unary_mem he) announced c
      rw [Session.run_bind]
      generalize s.run (copyInto a memo) = result at below
      obtain ⟨⟨b, memo'⟩, s'⟩ := result
      refine below.copying.copies_of_missing extant he below.kept ?_ missing
        (.unary h s'.next op below.root le_rfl) (Nat.le_succ s'.next) (Nat.lt_succ_self s'.next)
        (by simp)
      rintro x hx (rfl | other)
      · exact below.frame _ hx (not_mem_postorder_operand (by simp [operands]))
      · exact below.frame x hx fun mem => other (mem_postorder_unary.2 (.inl mem))
  | binary h op l r ihl ihr =>
    rw [copyInto]
    cases missing : memo[h]? with
    | some done => exact c.copies_of_found he missing
    | none =>
      obtain ⟨hl, hr⟩ := extant.binary_mem he
      have left := ihl hl announced.1 c
      rw [Session.run_bind]
      generalize s.run (copyInto l memo) = result at left
      obtain ⟨⟨l', memo₁⟩, s₁⟩ := result
      have right := ihr hr announced.2 left.copying
      rw [Session.run_bind]
      generalize s₁.run (copyInto r memo₁) = result at right
      obtain ⟨⟨r', memo₂⟩, s₂⟩ := result
      refine right.copying.copies_of_missing extant he (left.kept.trans right.kept) ?_ missing
        (.binary h s₂.next op (right.kept _ _ left.root) right.root le_rfl) (Nat.le_succ s₂.next)
        (Nat.lt_succ_self s₂.next) (by simp)
      rintro x hx (rfl | other)
      · rw [right.frame _ hx (not_mem_postorder_operand (by simp [operands])),
          left.frame _ hx (not_mem_postorder_operand (by simp [operands]))]
      · rw [right.frame x hx fun mem => other (mem_postorder_binary.2 (.inr (.inl mem))),
          left.frame x hx fun mem => other (mem_postorder_binary.2 (.inl mem))]

theorem copy_copies (extant : Extant nodes s.next) {e : Expr} (he : e ∈ nodes)
    (announced : e.Announced) :
    ∃ memo, Copies nodes s.next e {} (((s.run e.copy).1, memo), (s.run e.copy).2) :=
  ⟨_, copyInto_copies extant he announced (copying_empty nodes s.next)⟩

/-- A copy is the same graph over again, in which only the wildcards are the nodes they were, and it
announces and comes to what the original does, whether or not that is anything. It can be copied in
turn. -/
theorem copy_isomorphic (numbered : Numbered nodes s.next) {e : Expr} (he : e ∈ nodes)
    (announced : e.Announced) :
    ∃ y s', s.run e.copy = (y, s') ∧
      (∃ F : Expr → Expr, F e = y ∧ Set.BijOn F {x | x ∈ e.postorder} {z | z ∈ y.postorder} ∧
        ∀ x ∈ e.postorder, Copied (Unused nodes) (fun a b => F a = b) x (F x)) ∧
      Isomorphic e y ∧ y.shape = e.shape ∧ y.validate = e.validate ∧
      (∀ r c, y.entry r c = e.entry r c) ∧ Concord Eq Literal.Alike e.eval y.eval ∧
      ∃ more, nodes ⊆ more ∧ y ∈ more ∧ Numbered more s'.next := by
  obtain ⟨memo, done⟩ := copy_copies numbered.toExtant he announced
  have pairing := done.copying.pairing
  have isomorphic := pairing.isomorphic done.root
  have same := isomorphic.resembles
  obtain ⟨F, root, recorded, bij⟩ := pairing.exists_bijOn done.root
  refine ⟨_, _, rfl, ⟨F, root, bij, fun x hx => ?_⟩, isomorphic, same.shape_eq, same.validate_eq,
    same.entry_eq, same.eval, ?_⟩
  · have copied := done.copying.copied x (F x) ((recorded x hx (F x)).2 rfl)
    exact copied.mono (fun n => numbered.unused) fun a ha b hab =>
      (recorded a (mem_postorder_operand hx ha) b).1 hab
  · refine ⟨_, Set.subset_union_left, ?_, done.copying.numbered numbered⟩
    exact .inr ⟨e, done.root⟩

def patchwork : Expr :=
  .binary 6 (.elementwise .sub)
    (.binary 5 .product (.binary 4 (.elementwise .add) paddedColumn paddedColumn)
      (.leaf 2 (.future ⟨⟨⟨1, 1⟩, .error .zeroStride⟩, 1⟩)))
    (.leaf 3 (.wildcard ⟨0, "?a"⟩))

theorem patchwork_announced : patchwork.Announced := ⟨⟨⟨trivial, trivial⟩, nofun⟩, trivial⟩

theorem patchwork_numbered : ∃ nodes, Numbered nodes 7 ∧ patchwork ∈ nodes := by
  have column := (numbered_empty 0).insert (x := paddedColumn) le_rfl
    (by simp [operands, paddedColumn]) (by simp [paddedColumn])
  have failed := column.insert (x := .leaf 2 (.future ⟨⟨⟨1, 1⟩, .error .zeroStride⟩, 1⟩))
    (by decide) (by simp [operands]) (by rintro _ _ ⟨⟩; decide)
  have wildcard := failed.insert (x := .leaf 3 (.wildcard ⟨0, "?a"⟩)) le_rfl (by simp [operands])
    (by simp)
  have sum := wildcard.insert (x := .binary 4 (.elementwise .add) paddedColumn paddedColumn) le_rfl
    (by simp [operands]) (by simp)
  have product := sum.insert (x := .binary 5 .product
    (.binary 4 (.elementwise .add) paddedColumn paddedColumn)
    (.leaf 2 (.future ⟨⟨⟨1, 1⟩, .error .zeroStride⟩, 1⟩))) le_rfl (by simp [operands]) (by simp)
  have difference := product.insert (x := patchwork) le_rfl (by simp [operands, patchwork])
    (by simp [patchwork])
  exact ⟨_, difference, Set.mem_insert _ _⟩

theorem patchwork_copy_isomorphic : patchwork.Announced ∧
    (∃ nodes, Numbered nodes 7 ∧ patchwork ∈ nodes) ∧
    ∃ y, (({ next := 7 } : Session).run patchwork.copy).1 = y ∧ Isomorphic patchwork y ∧
      y.distinct.map handle = [7, 8, 10, 11, 3, 12] ∧
      y.entry 0 0 = .error (.failedFuture .zeroStride) := by
  obtain ⟨nodes, numbered, mem⟩ := patchwork_numbered
  obtain ⟨y, s', ran, -, isomorphic, -, -, entry, -⟩ :=
    copy_isomorphic (s := { next := 7 }) numbered mem patchwork_announced
  refine ⟨patchwork_announced, patchwork_numbered, _, rfl, ?_, ?_, ?_⟩
  · rw [ran]
    exact isomorphic
  · rfl
  · rw [ran, entry]
    rfl

end Expr

end LazyMatrix
