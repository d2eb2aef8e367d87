import LazyMatrix.Rules
import LazyMatrix.Proofs.Names
import LazyMatrix.Proofs.Pattern.Erased

/-! The built-in rules as they come out, whatever names a session has seen. A name is read several
times while a rule is made, and each time it is the same wildcard. -/

namespace LazyMatrix

namespace Rules

/-- `x` builds the pattern `k` of the wildcards that names have from then on. -/
def Draws (x : Build Expr) (k : (String → Wildcard) → Expr) : Prop :=
  ∀ s : Session, s.names.entries <+: (s.run x).2.names.entries ∧
    ∀ t : Names, (s.run x).2.names.entries <+: t.entries →
      (s.run x).1.erase = k fun name => (t.intern name).1

variable {x y : Build Expr} {k l : (String → Wildcard) → Expr}

theorem draws_var (name : String) : Draws (var name) fun ρ => .leaf 0 (.wildcard (ρ name)) := by
  intro s
  refine ⟨Names.intern_prefix s.names name, fun t le => ?_⟩
  have le : (s.names.intern name).2.entries <+: t.entries := le
  have same := Names.intern_of_prefix le (Names.mem_intern s.names name)
  rw [Names.intern_intern] at same
  exact congrArg (fun w => Expr.leaf 0 (.wildcard w)) same.symm

theorem draws_newUnary (op : UnaryOp) (hx : Draws x k) :
    Draws (do Expr.newUnary op (← x)) fun ρ => .unary 0 op (k ρ) := by
  intro s
  obtain ⟨le, drawn⟩ := hx s
  exact ⟨le, fun t le' => congrArg (Expr.unary 0 op) (drawn t le')⟩

theorem draws_on {o : Expr → Expr → Build Expr} {op : BinaryOp} (h : o = Expr.newBinary op)
    (hx : Draws x k) (hy : Draws y l) :
    Draws (on o x y) fun ρ => .binary 0 op (k ρ) (l ρ) := by
  subst h
  intro s
  obtain ⟨le, drawn⟩ := hx s
  obtain ⟨le', drawn'⟩ := hy (s.run x).2
  exact ⟨le.trans le', fun t le'' =>
    congrArg₂ (Expr.binary 0 op) (drawn t (le'.trans le'')) (drawn' t le'')⟩

theorem draws_transposed (hx : Draws x k) :
    Draws (transposed x) fun ρ => .unary 0 .transpose (k ρ) :=
  draws_newUnary .transpose hx

theorem draws_inBackground (hx : Draws x k) :
    Draws (inBackground x) fun ρ => .unary 0 .async (k ρ) :=
  draws_newUnary .async hx

theorem run_rule (name : String) (hx : Draws x k) (hy : Draws y l) (s : Session) :
    ∃ ρ : String → Wildcard, (∀ n, (ρ n).name = n) ∧
      (s.run (rule name x y)).1.source.erase = k ρ ∧
      (s.run (rule name x y)).1.target.erase = l ρ := by
  obtain ⟨-, drawn⟩ := hx s
  obtain ⟨le, drawn'⟩ := hy (s.run x).2
  exact ⟨fun n => (((s.run x).2.run y).2.names.intern n).1, Names.intern_name _, drawn _ le,
    drawn' _ List.prefix_rfl⟩

/-- The source and the target of a rule that brings transposes towards the root, up to handles. -/
inductive Hoisting : Expr → Expr → Prop where
  | hoist (f : Elementwise) {a b : Wildcard} (differ : a ≠ b) :
      Hoisting
        (.binary 0 (.elementwise f) (.unary 0 .transpose (.leaf 0 (.wildcard a)))
          (.unary 0 .transpose (.leaf 0 (.wildcard b))))
        (.unary 0 .transpose
          (.binary 0 (.elementwise f) (.leaf 0 (.wildcard a)) (.leaf 0 (.wildcard b))))
  | product {a b : Wildcard} (differ : a ≠ b) :
      Hoisting
        (.binary 0 .product (.unary 0 .transpose (.leaf 0 (.wildcard a)))
          (.unary 0 .transpose (.leaf 0 (.wildcard b))))
        (.unary 0 .transpose
          (.binary 0 .product (.leaf 0 (.wildcard b)) (.leaf 0 (.wildcard a))))
  | double {a : Wildcard} :
      Hoisting (.unary 0 .transpose (.unary 0 .transpose (.leaf 0 (.wildcard a))))
        (.leaf 0 (.wildcard a))

inductive Form : Expr → Expr → Prop where
  | hoisting {source target : Expr} (h : Hoisting source target) : Form source target
  | split (f : Elementwise) {a b c d : Wildcard} (differ : [a, b, c, d].Nodup) :
      Form
        (.binary 0 (.elementwise f)
          (.binary 0 .product (.leaf 0 (.wildcard a)) (.leaf 0 (.wildcard b)))
          (.binary 0 .product (.leaf 0 (.wildcard c)) (.leaf 0 (.wildcard d))))
        (.binary 0 (.elementwise f)
          (.unary 0 .async
            (.binary 0 .product (.leaf 0 (.wildcard a)) (.leaf 0 (.wildcard b))))
          (.unary 0 .async
            (.binary 0 .product (.leaf 0 (.wildcard c)) (.leaf 0 (.wildcard d)))))

inductive Dropping : Expr → Expr → Prop where
  | double {a : Wildcard} :
      Dropping (.unary 0 .transpose (.unary 0 .transpose (.leaf 0 (.wildcard a))))
        (.leaf 0 (.wildcard a))

inductive Splitting (f : Elementwise) : Expr → Expr → Prop where
  | split {a b c d : Wildcard} (differ : [a, b, c, d].Nodup) :
      Splitting f
        (.binary 0 (.elementwise f)
          (.binary 0 .product (.leaf 0 (.wildcard a)) (.leaf 0 (.wildcard b)))
          (.binary 0 .product (.leaf 0 (.wildcard c)) (.leaf 0 (.wildcard d))))
        (.binary 0 (.elementwise f)
          (.unary 0 .async
            (.binary 0 .product (.leaf 0 (.wildcard a)) (.leaf 0 (.wildcard b))))
          (.unary 0 .async
            (.binary 0 .product (.leaf 0 (.wildcard c)) (.leaf 0 (.wildcard d)))))

theorem Dropping.hoisting {source target : Expr} (h : Dropping source target) :
    Hoisting source target := by
  cases h with
  | double => exact .double

theorem Splitting.form {f : Elementwise} {source target : Expr} (h : Splitting f source target) :
    Form source target := by
  cases h with
  | split differ => exact .split f differ

theorem ne_of_name {ρ : String → Wildcard} (named : ∀ n, (ρ n).name = n) {m n : String}
    (h : m ≠ n) : ρ m ≠ ρ n :=
  fun same => h (by rw [← named m, ← named n, same])

def Hoists (t : Template) : Prop := Hoisting t.source.erase t.target.erase

def Formed (t : Template) : Prop := Form t.source.erase t.target.erase

def Drops (t : Template) : Prop := Dropping t.source.erase t.target.erase

def Splits (f : Elementwise) (t : Template) : Prop := Splitting f t.source.erase t.target.erase

theorem Hoists.formed {t : Template} (h : Hoists t) : Formed t := .hoisting h

theorem Drops.hoists {t : Template} (h : Drops t) : Hoists t := h.hoisting

theorem Splits.formed {f : Elementwise} {t : Template} (h : Splits f t) : Formed t := h.form

theorem draws_mul (hx : Draws x k) (hy : Draws y l) :
    Draws (on Expr.mul x y) fun ρ => .binary 0 .product (k ρ) (l ρ) :=
  draws_on rfl hx hy

theorem hoists_hoist (name : String) {o : Expr → Expr → Build Expr} {f : Elementwise}
    (h : o = Expr.newBinary (.elementwise f)) (s : Session) : Hoists (s.run (hoist name o)).1 := by
  obtain ⟨ρ, named, source, target⟩ := run_rule name
    (draws_on h (draws_transposed (draws_var "?a")) (draws_transposed (draws_var "?b")))
    (draws_transposed (draws_on h (draws_var "?a") (draws_var "?b"))) s
  rw [Hoists, hoist, source, target]
  exact .hoist f (ne_of_name named (by decide))

theorem hoists_hoistProduct (s : Session) : Hoists (s.run hoistProduct).1 := by
  obtain ⟨ρ, named, source, target⟩ := run_rule "transpose-mul"
    (draws_mul (draws_transposed (draws_var "?a")) (draws_transposed (draws_var "?b")))
    (draws_transposed (draws_mul (draws_var "?b") (draws_var "?a"))) s
  rw [Hoists, hoistProduct, source, target]
  exact .product (ne_of_name named (by decide))

theorem drops_dropDouble (s : Session) : Drops (s.run dropDouble).1 := by
  obtain ⟨ρ, -, source, target⟩ := run_rule "double-transpose"
    (draws_transposed (draws_transposed (draws_var "?a"))) (draws_var "?a") s
  rw [Drops, dropDouble, source, target]
  exact .double

theorem splits_split (name : String) {o : Expr → Expr → Build Expr} {f : Elementwise}
    (h : o = Expr.newBinary (.elementwise f)) (s : Session) : Splits f (s.run (split name o)).1 := by
  have products (x y : String) := draws_mul (draws_var x) (draws_var y)
  obtain ⟨ρ, named, source, target⟩ := run_rule name
    (draws_on h (products "?a" "?b") (products "?c" "?d"))
    (draws_on h (draws_inBackground (products "?a" "?b"))
      (draws_inBackground (products "?c" "?d"))) s
  rw [Splits, split, source, target]
  exact .split (by simp [ne_of_name named])

theorem run_transposeRules (s : Session) :
    ∃ hoisting double, (s.run transposeRules).1 = hoisting ++ [double] ∧
      (∀ t ∈ hoisting, Hoists t) ∧ Drops double := by
  rw [transposeRules]
  simp only [Session.run_bind, Session.run_pure]
  refine ⟨[_, _, _, _, _], _, rfl, ?_, drops_dropDouble _⟩
  simp only [List.forall_mem_cons]
  exact ⟨hoists_hoist _ (f := .add) rfl _, hoists_hoist _ (f := .sub) rfl _,
    hoists_hoist _ (f := .mul) rfl _, hoists_hoist _ (f := .div) rfl _, hoists_hoistProduct _,
    by simp⟩

theorem hoists_transposeRules (s : Session) : ∀ t ∈ (s.run transposeRules).1, Hoists t := by
  obtain ⟨hoisting, double, rules, hoists, drops⟩ := run_transposeRules s
  rw [rules, List.forall_mem_append, List.forall_mem_singleton]
  exact ⟨hoists, drops.hoists⟩

theorem run_concurrentProducts (s : Session) :
    ∃ sums differences, (s.run concurrentProducts).1 = [sums, differences] ∧
      Splits .add sums ∧ Splits .sub differences := by
  rw [concurrentProducts]
  simp only [Session.run_bind, Session.run_pure]
  exact ⟨_, _, rfl, splits_split _ rfl _, splits_split _ rfl _⟩

theorem formed_concurrentProducts (s : Session) :
    ∀ t ∈ (s.run concurrentProducts).1, Formed t := by
  obtain ⟨sums, differences, rules, splits, splits'⟩ := run_concurrentProducts s
  simp [rules, splits.formed, splits'.formed]

end Rules

end LazyMatrix
