import LazyMatrix.Expr.Basic

/-! The wildcards of an expression, from left to right, each as often as the tree holds it. They
are produced one at a time from a stack of nodes still to be searched, so that a search for one of
them ends where it is found. -/

namespace LazyMatrix

/-- The nodes still to be searched, the next one first. -/
structure Cursor where
  stack : List Expr

namespace Cursor

def start (e : Expr) : Cursor := ⟨[e]⟩

def remaining : List Expr → Nat
  | [] => 0
  | e :: rest => e.size + remaining rest

@[simp] theorem remaining_cons (e : Expr) (rest : List Expr) :
    remaining (e :: rest) = e.size + remaining rest := rfl

def search : List Expr → Option (Wildcard × List Expr)
  | [] => none
  | .leaf _ (.wildcard w) :: rest => some (w, rest)
  | .leaf _ (.literal _) :: rest => search rest
  | .leaf _ (.future _) :: rest => search rest
  | .unary _ _ x :: rest => search (x :: rest)
  | .binary _ _ l r :: rest => search (l :: r :: rest)
termination_by stack => remaining stack
decreasing_by all_goals simp [Expr.size] <;> omega

theorem remaining_lt_of_search {stack rest : List Expr} {w : Wildcard}
    (h : search stack = some (w, rest)) : remaining rest < remaining stack := by
  fun_induction search stack with
  | case1 => simp at h
  | case2 => simp_all [Expr.size]
  | case3 _ _ _ ih => have := ih h; simp; omega
  | case4 _ _ _ ih => have := ih h; simp; omega
  | case5 _ _ _ _ ih => have := ih h; simp_all [Expr.size]; omega
  | case6 _ _ _ _ _ ih => have := ih h; simp_all [Expr.size]; omega

def next? (c : Cursor) : Option (Wildcard × Cursor) :=
  (search c.stack).map fun (w, rest) => (w, ⟨rest⟩)

theorem remaining_lt_of_next? {c d : Cursor} {w : Wildcard} (h : c.next? = some (w, d)) :
    remaining d.stack < remaining c.stack := by
  obtain ⟨⟨v, rest⟩, hs, he⟩ := Option.map_eq_some_iff.1 h
  cases he
  exact remaining_lt_of_search hs

def toList (c : Cursor) : List Wildcard :=
  match _h : c.next? with
  | none => []
  | some (w, d) => w :: d.toList
termination_by remaining c.stack
decreasing_by exact remaining_lt_of_next? _h

def find? (p : Wildcard → Bool) (c : Cursor) : Option Wildcard :=
  match _h : c.next? with
  | none => none
  | some (w, d) => if p w then some w else d.find? p
termination_by remaining c.stack
decreasing_by exact remaining_lt_of_next? _h

end Cursor

namespace Expr

def wildcards (e : Expr) : List Wildcard := (Cursor.start e).toList

def firstWildcard? : Expr → Option Wildcard
  | .leaf _ (.wildcard w) => some w
  | .leaf _ (.literal _) => none
  | .leaf _ (.future _) => none
  | .unary _ _ x => x.firstWildcard?
  | .binary _ _ l r =>
      match l.firstWildcard? with
      | some w => some w
      | none => r.firstWildcard?

end Expr

end LazyMatrix
