import LazyMatrix.Expr.Wildcards

/-! The wildcards that a cursor produces are those of the tree from left to right. -/

namespace LazyMatrix

namespace Expr

/-- The wildcards of the tree, read off from left to right. -/
def wildcardLeaves : Expr → List Wildcard
  | .leaf _ (.wildcard w) => [w]
  | .leaf _ (.literal _) => []
  | .leaf _ (.future _) => []
  | .unary _ _ x => x.wildcardLeaves
  | .binary _ _ l r => l.wildcardLeaves ++ r.wildcardLeaves

def Ground : Expr → Prop
  | .leaf _ (.wildcard _) => False
  | .leaf _ (.literal _) => True
  | .leaf _ (.future _) => True
  | .unary _ _ x => x.Ground
  | .binary _ _ l r => l.Ground ∧ r.Ground

theorem wildcardLeaves_eq_nil_iff {e : Expr} : e.wildcardLeaves = [] ↔ e.Ground := by
  induction e with
  | leaf h x => cases x <;> simp [wildcardLeaves, Ground]
  | unary h op x ih => simpa [wildcardLeaves, Ground] using ih
  | binary h op l r ihl ihr => simp [wildcardLeaves, Ground, ihl, ihr]

theorem firstWildcard?_eq_head? (e : Expr) : e.firstWildcard? = e.wildcardLeaves.head? := by
  induction e with
  | leaf h x => cases x <;> rfl
  | unary h op x ih => simpa [wildcardLeaves, firstWildcard?] using ih
  | binary h op l r ihl ihr =>
    rw [firstWildcard?, wildcardLeaves, List.head?_append, ← ihl, ← ihr]
    cases l.firstWildcard? <;> rfl

theorem firstWildcard?_eq_none_iff {e : Expr} : e.firstWildcard? = none ↔ e.Ground := by
  rw [firstWildcard?_eq_head?, List.head?_eq_none_iff, wildcardLeaves_eq_nil_iff]

end Expr

namespace Cursor

theorem flatMap_of_search (stack : List Expr) :
    stack.flatMap Expr.wildcardLeaves =
      match search stack with
      | none => []
      | some (w, rest) => w :: rest.flatMap Expr.wildcardLeaves := by
  fun_induction search stack with
  | case1 => rfl
  | case2 => simp [Expr.wildcardLeaves]
  | case3 _ _ _ ih => simpa [Expr.wildcardLeaves] using ih
  | case4 _ _ _ ih => simpa [Expr.wildcardLeaves] using ih
  | case5 _ _ _ _ ih => simpa [Expr.wildcardLeaves] using ih
  | case6 _ _ _ _ _ ih => simpa [Expr.wildcardLeaves] using ih

theorem toList_eq (c : Cursor) : c.toList = c.stack.flatMap Expr.wildcardLeaves := by
  fun_induction toList c with
  | case1 c h =>
    have done : search c.stack = none := Option.map_eq_none_iff.1 h
    rw [flatMap_of_search, done]
  | case2 c w d h ih =>
    obtain ⟨⟨v, rest⟩, found, same⟩ := Option.map_eq_some_iff.1 h
    cases same
    rw [ih, flatMap_of_search c.stack, found]

theorem find?_eq (p : Wildcard → Bool) (c : Cursor) :
    c.find? p = (c.stack.flatMap Expr.wildcardLeaves).find? p := by
  fun_induction find? p c with
  | case1 c h =>
    have done : search c.stack = none := Option.map_eq_none_iff.1 h
    rw [flatMap_of_search, done]
    rfl
  | case2 c w d h hit =>
    obtain ⟨⟨v, rest⟩, found, same⟩ := Option.map_eq_some_iff.1 h
    cases same
    simp [flatMap_of_search c.stack, found, hit]
  | case3 c w d h miss ih =>
    obtain ⟨⟨v, rest⟩, found, same⟩ := Option.map_eq_some_iff.1 h
    cases same
    simp [flatMap_of_search c.stack, found, miss, ih]

/-- The cursor after a call for the next wildcard. A call that finds none has emptied the stack. -/
def advance (c : Cursor) : Cursor :=
  match c.next? with
  | some (_, d) => d
  | none => ⟨[]⟩

/-- What call number `n` yields, the first being number 0. -/
def yielded (c : Cursor) : (n : Nat) → Option Wildcard
  | 0 => c.next?.map Prod.fst
  | n + 1 => c.advance.yielded n

theorem map_next? (c : Cursor) :
    c.next?.map Prod.fst = (c.stack.flatMap Expr.wildcardLeaves).head? := by
  rw [flatMap_of_search c.stack, next?]
  cases search c.stack <;> rfl

theorem flatMap_advance (c : Cursor) :
    c.advance.stack.flatMap Expr.wildcardLeaves =
      (c.stack.flatMap Expr.wildcardLeaves).tail := by
  rw [flatMap_of_search c.stack, advance, next?]
  cases search c.stack <;> rfl

theorem yielded_eq (c : Cursor) (n : Nat) :
    c.yielded n = (c.stack.flatMap Expr.wildcardLeaves)[n]? := by
  induction n generalizing c with
  | zero => rw [yielded, map_next?, List.head?_eq_getElem?]
  | succ n ih => rw [yielded, ih, flatMap_advance, List.getElem?_tail]

end Cursor

namespace Expr

theorem wildcards_eq (e : Expr) : e.wildcards = e.wildcardLeaves := by
  simp [wildcards, Cursor.toList_eq, Cursor.start]

end Expr

end LazyMatrix
