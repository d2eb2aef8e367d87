import LazyMatrix.Proofs.Pattern.Filled

/-! Patterns up to handles. The handles of a pattern whose leaves are all wildcards say nothing
about what it matches or what is made of it. -/

namespace LazyMatrix.Expr

def erase : Expr → Expr
  | .leaf _ x => .leaf 0 x
  | .unary _ op x => .unary 0 op x.erase
  | .binary _ op l r => .binary 0 op l.erase r.erase

def Wild : Expr → Prop
  | .leaf _ (.wildcard _) => True
  | .leaf _ (.literal _) => False
  | .leaf _ (.future _) => False
  | .unary _ _ x => x.Wild
  | .binary _ _ l r => l.Wild ∧ r.Wild

variable {p : Expr} {σ : Bindings} {nodes : Set Expr}

@[simp] theorem wild_erase : p.erase.Wild ↔ p.Wild := by
  induction p with
  | leaf h x => cases x <;> rfl
  | unary h op p ih => exact ih
  | binary h op p q ihp ihq => exact and_congr ihp ihq

@[simp] theorem unscaled_erase : p.erase.Unscaled ↔ p.Unscaled := by
  induction p with
  | leaf h x => rfl
  | unary h op p ih => exact and_congr Iff.rfl ih
  | binary h op p q ihp ihq => exact and_congr ihp ihq

@[simp] theorem wildcardLeaves_erase (p : Expr) : p.erase.wildcardLeaves = p.wildcardLeaves := by
  induction p with
  | leaf h x => cases x <;> rfl
  | unary h op p ih => exact ih
  | binary h op p q ihp ihq => rw [erase, wildcardLeaves, wildcardLeaves, ihp, ihq]

theorem Wild.rooted (wild : p.Wild) : p.Rooted nodes := by
  induction p with
  | leaf h x =>
    cases x with
    | wildcard w => trivial
    | literal | future => exact wild.elim
  | unary h op p ih => exact ih wild
  | binary h op p q ihp ihq => exact ⟨ihp wild.1, ihq wild.2⟩

theorem Wild.filled_erase (wild : p.Wild) {y : Expr} : p.erase.Filled σ y ↔ p.Filled σ y := by
  induction p generalizing y with
  | leaf h x =>
    cases x with
    | wildcard w => rfl
    | literal | future => exact wild.elim
  | unary h op p ih => simp [erase, Filled, ih wild]
  | binary h op p q ihp ihq => simp [erase, Filled, ihp wild.1, ihq wild.2]

end LazyMatrix.Expr
