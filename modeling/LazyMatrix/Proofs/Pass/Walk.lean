import LazyMatrix.Proofs.Expr.Postorder
import LazyMatrix.Proofs.Pass.Soundness

/-! Running a pass throughout an expression, without the table of what is done. The table holds for
each node what the pass answered when it was run on that node over its new operands, and the walk
fills it in once for each node, operands first. -/

namespace LazyMatrix.Pass

variable {run : Expr → Attempt PassError Expr} {F G : Expr → Expr} {s s' : Session} {x y : Expr}

/-- A node over what has become of its operands, which is the node itself if they are as before. -/
def rebuilt (F : Expr → Expr) (x : Expr) : Build Expr :=
  if x.operands.all fun c => (F c).same c then return x else x.mapOperands fun c => return F c

theorem rebuilt_congr (h : ∀ c ∈ x.operands, F c = G c) : rebuilt F x = rebuilt G x := by
  cases x with
  | leaf i a => rfl
  | unary i op a => simp [rebuilt, Expr.operands, Expr.mapOperands, h a (by simp [Expr.operands])]
  | binary i op l r =>
    simp [rebuilt, Expr.operands, Expr.mapOperands, h l (by simp [Expr.operands]),
      h r (by simp [Expr.operands])]

/-- Run once in session `s`, on the node `x` over what has become of its operands, the pass makes
`y` of it, or declines it and `y` is the node that it was given. -/
def Answers (run : Expr → Attempt PassError Expr) (F : Expr → Expr) (s : Session) (x y : Expr)
    (s' : Session) : Prop :=
  let (given, begun) := s.run (rebuilt F x)
  begun.run (run given).run = (.ok y, s') ∨
    ∃ m, begun.run (run given).run = (.error (.mismatch m), s') ∧ y = given

/-- Run once in session `s`, on the node `x` over what has become of its operands, the pass turns
out to be broken. -/
def Breaks (run : Expr → Attempt PassError Expr) (F : Expr → Expr) (s : Session) (x : Expr)
    (u : Unbound) (s' : Session) : Prop :=
  let (given, begun) := s.run (rebuilt F x)
  begun.run (run given).run = (.error (.broken u), s')

/-- The pass answers for one node after the other, once for each, and `F` has its answers. -/
inductive Settled (run : Expr → Attempt PassError Expr) (F : Expr → Expr) :
    Session → List Expr → Session → Prop
  | nil (s : Session) : Settled run F s [] s
  | cons {s₁ s₂ s₃ : Session} {x : Expr} {rest : List Expr} (first : Answers run F s₁ x (F x) s₂)
      (others : Settled run F s₂ rest s₃) : Settled run F s₁ (x :: rest) s₃

theorem answers_congr (h : ∀ c ∈ x.operands, F c = G c) :
    Answers run F s x y s' ↔ Answers run G s x y s' := by
  rw [Answers, Answers, rebuilt_congr h]

def image (memo : Memo) (x : Expr) : Expr := memo[x.handle]?.getD x

theorem contains_insert (memo : Memo) (x y : Expr) :
    (memo.insert x.handle y).contains = fun h => x.handle == h || memo.contains h := by
  funext h
  rw [Std.TreeMap.contains_insert]
  congr 1
  rw [Bool.eq_iff_iff, beq_iff_eq, beq_iff_eq, Std.compare_eq_iff_eq]

/-- A table filled in node by node, operands before the node that holds them and no node twice. -/
inductive Filled (run : Expr → Attempt PassError Expr) :
    Memo → Session → List Expr → Memo → Session → Prop
  | nil (memo : Memo) (s : Session) : Filled run memo s [] memo s
  | cons {memo memo' : Memo} {s₁ s₂ s₃ : Session} {x y : Expr} {rest : List Expr}
      (operands : ∀ c ∈ x.operands, memo.contains c.handle = true)
      (new : memo.contains x.handle = false) (first : Answers run (image memo) s₁ x y s₂)
      (others : Filled run (memo.insert x.handle y) s₂ rest memo' s₃) :
      Filled run memo s₁ (x :: rest) memo' s₃

namespace Filled

variable {memo memo' : Memo} {xs : List Expr}

theorem contains_eq (h : Filled run memo s xs memo' s') :
    memo'.contains = Expr.seenAfter memo.contains xs := by
  induction h with
  | nil => rw [Expr.seenAfter_nil]
  | cons _ _ _ _ ih => rw [ih, contains_insert, Expr.seenAfter_cons]

theorem getElem?_eq (h : Filled run memo s xs memo' s') {i : Nat}
    (found : memo.contains i = true) : memo'[i]? = memo[i]? := by
  induction h with
  | nil => rfl
  | @cons memo _ _ _ _ x y _ _ new _ _ ih =>
    have other : x.handle ≠ i := by
      rintro rfl
      simp [new] at found
    rw [ih (by simp [found]), Std.TreeMap.getElem?_insert,
      if_neg (by simpa using other)]

theorem image_eq (h : Filled run memo s xs memo' s') (found : memo.contains x.handle = true) :
    image memo' x = image memo x := by
  rw [image, image, h.getElem?_eq found]

theorem append {ys : List Expr} {memo'' : Memo} {s'' : Session}
    (h : Filled run memo s xs memo' s') (h' : Filled run memo' s' ys memo'' s'') :
    Filled run memo s (xs ++ ys) memo'' s'' := by
  induction h with
  | nil => exact h'
  | cons operands new first _ ih => exact .cons operands new first (ih h')

theorem settled (h : Filled run memo s xs memo' s') : Settled run (image memo') s xs s' := by
  induction h with
  | nil => exact .nil _
  | @cons memo memo' _ _ _ x y _ operands new first others ih =>
    have own : image memo' x = y := by
      rw [others.image_eq (by simp), image]
      simp
    refine .cons ?_ ih
    rw [own]
    refine (answers_congr fun c hc => ?_).1 first
    have other : c.handle ≠ x.handle := by
      intro same
      simp [← same, operands c hc] at new
    rw [others.image_eq (by simp [operands c hc]), image, image,
      Std.TreeMap.getElem?_insert, if_neg (by simpa using Ne.symm other)]

end Filled

variable {memo memo' : Memo} {xs ys : List Expr} {e : Expr}
  {result : Except PassError (Expr × Memo) × Session}

def Ends (run : Expr → Attempt PassError Expr) (memo : Memo) (s : Session) (xs : List Expr)
    (e : Expr) (result : Except PassError (Expr × Memo) × Session) : Prop :=
  (∃ memo' s', Filled run memo s xs memo' s' ∧ result = (.ok (image memo' e, memo'), s')) ∨
    ∃ done x rest memo' s₁ u s₂, xs = done ++ x :: rest ∧ Filled run memo s done memo' s₁ ∧
      Breaks run (image memo') s₁ x u s₂ ∧ result = (.error (.broken u), s₂)

theorem Ends.bind {a : Attempt PassError (Expr × Memo)}
    {f : Expr × Memo → Attempt PassError (Expr × Memo)} (first : Ends run memo s xs x (s.run a.run))
    (others : ∀ memo' s', Filled run memo s xs memo' s' →
      Ends run memo' s' ys e (s'.run (f (image memo' x, memo')).run)) :
    Ends run memo s (xs ++ ys) e (s.run (a >>= f).run) := by
  rw [ExceptT.run_bind, Session.run_bind]
  obtain ⟨memo', s', filled, ran⟩ | ⟨done, z, rest, memo', s₁, u, s₂, rfl, filled, breaks, ran⟩ :=
    first
  · rw [ran]
    obtain ⟨memo'', s'', filled', ran'⟩ | ⟨done, z, rest, memo'', s₁, u, s₂, rfl, filled', breaks,
      ran'⟩ := others memo' s' filled
    · exact .inl ⟨memo'', s'', filled.append filled', ran'⟩
    · exact .inr ⟨xs ++ done, z, rest, memo'', s₁, u, s₂, by simp, filled.append filled', breaks,
        ran'⟩
  · rw [ran]
    exact .inr ⟨done, z, rest ++ ys, memo', s₁, u, s₂, by simp, filled, breaks, rfl⟩

theorem image_insert (memo : Memo) (x y : Expr) : image (memo.insert x.handle y) x = y := by
  simp [image]

def Closed (root : Expr) (memo : Memo) : Prop :=
  ∀ x ∈ root.postorder, memo.contains x.handle = true →
    ∀ y ∈ x.postorder, memo.contains y.handle = true

variable {root : Expr}

theorem contains_of_filled (h : Filled run memo s (Expr.unseen memo.contains xs) memo' s') :
    memo'.contains = Expr.seenAfter memo.contains xs := by
  rw [h.contains_eq, Expr.seenAfter_unseen]

theorem Closed.filled (closed : Closed root memo) (consistent : root.Consistent)
    (he : e ∈ root.postorder)
    (h : Filled run memo s (Expr.unseen memo.contains e.postorder) memo' s') :
    Closed root memo' := by
  intro x hx found y hy
  rw [contains_of_filled h, Expr.seenAfter, Bool.or_eq_true] at found ⊢
  obtain found | found := found
  · exact .inl (closed x hx found y hy)
  · obtain ⟨z, hz, same⟩ : ∃ z ∈ e.postorder, z.handle = x.handle := by simpa using found
    obtain rfl := consistent z (Expr.mem_postorder_trans hz he) x hx (by simpa [Expr.same] using same)
    refine .inr (List.any_eq_true.2 ⟨y, Expr.mem_postorder_trans hy hz, by simp⟩)

/-- The pass declines every node of the expression, whenever it is run. -/
def Declines (run : Expr → Attempt PassError Expr) (root : Expr) : Prop :=
  ∀ (s : Session), ∀ x ∈ root.postorder, ∃ m, (s.run (run x).run).1 = .error (.mismatch m)

theorem rebuilt_of_fixed (h : ∀ c ∈ x.operands, F c = c) : rebuilt F x = pure x := by
  rw [rebuilt, if_pos]
  exact List.all_eq_true.2 fun c hc => by simp [h c hc, Expr.same]

theorem Declines.answer_eq (h : Declines run root) (hx : x ∈ root.postorder)
    (fixed : ∀ c ∈ x.operands, F c = c) (answers : Answers run F s x y s') : y = x := by
  rw [Answers, rebuilt_of_fixed fixed] at answers
  obtain answer | ⟨m, -, rfl⟩ := answers
  · obtain ⟨m, declined⟩ := h s x hx
    simp [answer] at declined
  · rfl

theorem Declines.image_eq (h : Declines run root) (consistent : root.Consistent)
    (filled : Filled run memo s xs memo' s') (hxs : ∀ x ∈ xs, x ∈ root.postorder)
    (fixed : ∀ z ∈ root.postorder, image memo z = z) : ∀ z ∈ root.postorder, image memo' z = z := by
  induction filled with
  | nil => exact fixed
  | @cons memo _ _ _ _ x y rest _ _ first _ ih =>
    have hx := hxs x (by simp)
    have own : y = x :=
      h.answer_eq hx (fun c hc => fixed c (Expr.mem_postorder_operand hx hc)) first
    refine ih (fun z hz => hxs z (by simp [hz])) fun z hz => ?_
    by_cases same : x.same z = true
    · rw [← consistent x hx z hz same, image_insert, own]
    · rw [image, Std.TreeMap.getElem?_insert, if_neg (by simpa [Expr.same] using same)]
      exact fixed z hz

end LazyMatrix.Pass
