import LazyMatrix.Sexp.Layout
import LazyMatrix.Sexp.Reader

/-! Reading back what was laid out. The tokens of a layout are those of the expression from left to
right, wherever its lines are broken, so long as each atom is read as it is written. -/

namespace LazyMatrix

namespace Text

variable {p : Char → Bool} {cs : List Char}

theorem dropWhile_of_head (h : ∀ c ∈ cs.head?, p c = false) : cs.dropWhile p = cs := by
  cases cs with
  | nil => rfl
  | cons c cs => rw [List.dropWhile, h c rfl]

theorem strip_eq_self (first : ∀ c ∈ cs.head?, p c = false)
    (last : ∀ c ∈ cs.getLast?, p c = false) : strip p cs = cs := by
  have back : cs.reverse.dropWhile p = cs.reverse :=
    dropWhile_of_head (by simpa using last)
  rw [strip, dropWhile_of_head first, back, List.reverse_reverse]

theorem strip_wrapped {a b : Char} (ha : p a = true) (hb : p b = true)
    (first : ∀ c ∈ cs.head?, p c = false) (last : ∀ c ∈ cs.getLast?, p c = false) :
    strip p (a :: cs ++ [b]) = cs := by
  have back : (b :: cs.reverse).dropWhile p = cs.reverse := by
    rw [List.dropWhile_cons_of_pos hb]
    exact dropWhile_of_head (by simpa using last)
  cases cs with
  | nil => simp [strip, ha, hb]
  | cons c cs =>
    have front : (a :: (c :: cs) ++ [b]).dropWhile p = c :: cs ++ [b] := by
      rw [List.cons_append, List.dropWhile_cons_of_pos ha]
      exact dropWhile_of_head (by simpa using first)
    rw [strip, front, List.reverse_append, List.reverse_singleton, List.singleton_append, back,
      List.reverse_reverse]

end Text

namespace Sexp

def isEdge (c : Char) : Bool := !Text.isBlank c && c ≠ '"'

/-- An atom that is printed as it is and is read as an atom, though maybe not as all of it. -/
structure Shown (s : String) : Prop where
  nonempty : s.toList ≠ []
  first : ∀ c ∈ s.toList.head?, isEdge c = true ∧ endsAtom c = false
  last : ∀ c ∈ s.toList.getLast?, c ≠ '"'

/-- An atom that is read as it is written where something else comes behind it. -/
structure Solid (s : String) : Prop extends Shown s where
  inside : ∀ c ∈ s.toList, endsAtom c = false

structure Plain (s : String) : Prop where
  nonempty : s.toList ≠ []
  inside : ∀ c ∈ s.toList, endsAtom c = false
  first : ∀ c ∈ s.toList.head?, isEdge c = true
  last : ∀ c ∈ s.toList.getLast?, isEdge c = true

theorem isEdge_iff {c : Char} : isEdge c = true ↔ Text.isBlank c = false ∧ c ≠ '"' := by
  simp [isEdge]

theorem Plain.solid {s : String} (plain : Plain s) : Solid s where
  nonempty := plain.nonempty
  first c hc := ⟨plain.first c hc, plain.inside c (List.mem_of_mem_head? hc)⟩
  last c hc := (isEdge_iff.1 (plain.last c hc)).2
  inside := plain.inside

theorem isBlank_of_isGap {c : Char} (h : isGap c = true) : Text.isBlank c = true := by
  simp only [isGap, Bool.or_eq_true, decide_eq_true_eq] at h
  obtain ((rfl | rfl) | rfl) | rfl := h <;> decide

theorem afterGap_of_edge {c : Char} (edge : isEdge c = true) (inside : endsAtom c = false) :
    Position.afterGap c = ([], .bare [c]) := by
  simp only [isEdge, Bool.and_eq_true, Bool.not_eq_true', decide_eq_true_eq] at edge
  have gap : isGap c = false := by
    cases h : isGap c with
    | false => rfl
    | true => simp [isBlank_of_isGap h] at edge
  simp only [endsAtom, Bool.or_eq_false_iff, decide_eq_false_iff_not] at inside
  obtain ⟨⟨-, opening⟩, closing⟩ := inside
  simp [Position.afterGap, gap, opening, closing, edge.2]

variable {s : String} {rest : List Char}

theorem tokens_bare (acc : List Char) {cs : List Char} (inside : ∀ c ∈ cs, endsAtom c = false)
    (ends : ∀ c ∈ rest.head?, endsAtom c = true) :
    tokens (.bare acc) (cs ++ rest) = .ofReversed (cs.reverse ++ acc) :: tokens .gap rest := by
  induction cs generalizing acc with
  | nil =>
    cases rest with
    | nil => rfl
    | cons c rest => simp [tokens, Position.step, ends c rfl]
  | cons c cs ih =>
    rw [List.cons_append, tokens, Position.step, inside c (by simp)]
    simpa using ih (c :: acc) fun d hd => inside d (by simp [hd])

theorem Shown.tokens_eq (shown : Shown s) {cs : List Char} (within : cs <+: s.toList)
    (nonempty : cs ≠ []) (inside : ∀ c ∈ cs, endsAtom c = false)
    (ends : ∀ c ∈ rest.head?, endsAtom c = true) :
    tokens .gap (cs ++ rest) = .atom (String.ofList cs) :: tokens .gap rest := by
  obtain ⟨c, cs, rfl⟩ := List.exists_cons_of_ne_nil nonempty
  obtain ⟨after, chars⟩ := within
  have edge := (shown.first c (by simp [← chars])).1
  have step := afterGap_of_edge edge (inside c (by simp))
  have same : Token.ofReversed (cs.reverse ++ [c]) = .atom (String.ofList (c :: cs)) := by
    rw [Token.ofReversed, List.reverse_append, List.reverse_reverse, List.reverse_singleton,
      List.singleton_append]
  rw [List.cons_append, tokens, Position.step, step, List.nil_append,
    tokens_bare [c] (fun d hd => inside d (by simp [hd])) ends, same]

theorem Solid.tokens_eq (solid : Solid s) (ends : ∀ c ∈ rest.head?, endsAtom c = true) :
    tokens .gap (s.toList ++ rest) = .atom s :: tokens .gap rest := by
  rw [solid.toShown.tokens_eq List.prefix_rfl solid.nonempty solid.inside ends, String.ofList_toList]

theorem Shown.bareText_eq (shown : Shown s) : bareText s = s := by
  have first : ∀ c ∈ s.toList.head?, decide (c = '"') = false := fun c hc => by
    simpa using (isEdge_iff.1 (shown.first c hc).1).2
  have last : ∀ c ∈ s.toList.getLast?, decide (c = '"') = false := fun c hc => by
    simpa using shown.last c hc
  rw [bareText, atomText]
  split
  · rw [String.toList_append, String.toList_append,
      show "\"".toList = ['"'] from rfl, List.singleton_append,
      Text.strip_wrapped (by simp) (by simp) first last, String.ofList_toList]
  · rw [Text.strip_eq_self first last, String.ofList_toList]

mutual

def flat : Sexp → List Token
  | .atom s => [.atom s]
  | .list items => .opening :: flatItems items ++ [.closing]

def flatItems : List Sexp → List Token
  | [] => []
  | x :: rest => x.flat ++ flatItems rest

end

theorem tokens_indentation (level : Nat) :
    tokens .gap ((indentation level).toList ++ rest) = tokens .gap rest := by
  rw [indentation, String.toList_ofList]
  induction 2 * level with
  | zero => rfl
  | succ n ih => exact ih

theorem tokens_separator (broken : Bool) (level : Nat) :
    tokens .gap ((separator broken level).toList ++ rest) = tokens .gap rest := by
  cases broken with
  | false =>
    have blank : (separator false level).toList = [' '] := by simp [separator]
    rw [blank]
    rfl
  | true =>
    rw [separator, if_pos rfl, String.toList_append, List.append_assoc]
    exact tokens_indentation level

theorem separator_ends (broken : Bool) (level : Nat) :
    ∀ c ∈ ((separator broken level).toList ++ rest).head?, endsAtom c = true := by
  intro c hc
  cases broken with
  | false =>
    obtain rfl : ' ' = c := by simpa [separator] using hc
    rfl
  | true =>
    obtain rfl : '\n' = c := by simpa [separator] using hc
    rfl

mutual

theorem tokens_layout (width level : Nat) : (x : Sexp) →
    (∀ s, .atom s ∈ x.flat → Solid s) → (rest : List Char) →
    (∀ c ∈ rest.head?, endsAtom c = true) →
    tokens .gap ((layout width level x).toList ++ rest) = x.flat ++ tokens .gap rest
  | .atom s, solid, rest, ends => by
    have solid : Solid s := solid s (by simp [flat])
    rw [layout, solid.toShown.bareText_eq, solid.tokens_eq ends, flat, List.singleton_append]
  | .list items, solid, rest, _ => by
    have solid : ∀ s, .atom s ∈ flatItems items → Solid s := fun s hs =>
      solid s (by simp [flat, hs])
    have inner := tokens_layoutItems width level (isBroken width (.list items)) items solid
      (')' :: rest) (by simp [endsAtom])
    simp only [layout, String.toList_append, List.append_assoc, flat, List.cons_append,
      List.nil_append] at inner ⊢
    exact congrArg (Token.opening :: ·) inner

theorem tokens_layoutItems (width level : Nat) (broken : Bool) : (items : List Sexp) →
    (∀ s, .atom s ∈ flatItems items → Solid s) → (rest : List Char) →
    (∀ c ∈ rest.head?, endsAtom c = true) →
    tokens .gap ((layoutItems width level broken items).toList ++ rest) =
      flatItems items ++ tokens .gap rest
  | [], _, _, _ => rfl
  | [x], solid, rest, ends => by
    rw [layoutItems, flatItems, flatItems, List.append_nil]
    exact tokens_layout width (level + 1) x (fun s hs => solid s (by simp [flatItems, hs])) rest ends
  | x :: y :: others, solid, rest, ends => by
    have first := tokens_layout width (level + 1) x (fun s hs => solid s (by simp [flatItems, hs]))
      ((separator broken level).toList ++
        ((layoutItems width level broken (y :: others)).toList ++ rest))
      (separator_ends broken level)
    have after := tokens_layoutItems width level broken (y :: others)
      (fun s hs => solid s (by rw [flatItems]; simp [hs])) rest ends
    rw [layoutItems, String.toList_append, String.toList_append, List.append_assoc,
      List.append_assoc, first, tokens_separator, after, ← List.append_assoc]
    rfl

end

mutual

theorem assemble_flat : (x : Sexp) → (items : List Sexp) → (stack : List (List Sexp)) →
    (rest : List Token) →
    assemble (items :: stack) (x.flat ++ rest) = assemble ((x :: items) :: stack) rest
  | .atom s, items, stack, rest => by
    simp only [flat, List.singleton_append, assemble]
  | .list xs, items, stack, rest => by
    simp only [flat, List.cons_append, List.append_assoc, assemble]
    rw [assemble_flatItems xs]
    simp [assemble]

theorem assemble_flatItems : (xs items : List Sexp) → (stack : List (List Sexp)) →
    (rest : List Token) → assemble (items :: stack) (flatItems xs ++ rest) =
      assemble ((xs.reverse ++ items) :: stack) rest
  | [], _, _, _ => rfl
  | x :: xs, items, stack, rest => by
    rw [flatItems, List.append_assoc, assemble_flat x, assemble_flatItems xs]
    simp

end

theorem assemble_alone (x : Sexp) : assemble [] x.flat = .ok x := by
  cases x with
  | atom s => rfl
  | list xs =>
    simp only [flat, List.cons_append, assemble]
    rw [assemble_flatItems xs]
    simp [assemble]

theorem flatItems_append (xs ys : List Sexp) : flatItems (xs ++ ys) = flatItems xs ++ flatItems ys := by
  induction xs with
  | nil => rfl
  | cons x xs ih => rw [List.cons_append, flatItems, flatItems, ih, List.append_assoc]

/-- The tokens from which the lists that are still open came, the innermost one last. -/
def opened : List (List Sexp) → List Token
  | [] => []
  | items :: outer => opened outer ++ .opening :: flatItems items.reverse

theorem opened_cons (x : Sexp) (items : List Sexp) (outer : List (List Sexp)) :
    opened ((x :: items) :: outer) = opened (items :: outer) ++ x.flat := by
  simp [opened, flatItems_append, flatItems]

theorem flat_of_assemble {stack : List (List Sexp)} {ts : List Token} {x : Sexp}
    (h : assemble stack ts = .ok x) : ∃ rest, opened stack ++ ts = x.flat ++ rest := by
  induction stack, ts using assemble.induct with
  | case1 | case2 => simp [assemble] at h
  | case3 stack rest ih =>
    obtain ⟨rest', same⟩ := ih (by rwa [assemble] at h)
    exact ⟨rest', by simpa [opened, flatItems] using same⟩
  | case4 => simp [assemble] at h
  | case5 s rest =>
    obtain rfl : .atom s = x := by simpa [assemble] using h
    exact ⟨rest, rfl⟩
  | case6 items stack s rest ih =>
    obtain ⟨rest', same⟩ := ih (by rwa [assemble] at h)
    exact ⟨rest', by simpa [opened_cons, flat] using same⟩
  | case7 items rest =>
    obtain rfl : .list items.reverse = x := by simpa [assemble] using h
    exact ⟨rest, by simp [opened, flat]⟩
  | case8 items outer stack rest ih =>
    obtain ⟨rest', same⟩ := ih (by rwa [assemble] at h)
    refine ⟨rest', ?_⟩
    rw [opened_cons] at same
    rw [← same]
    simp [opened, flat]

variable {x : Sexp} (width level : Nat)

theorem read_layout (solid : ∀ s, .atom s ∈ x.flat → Solid s) :
    read (layout width level x).toList = .ok x := by
  have all := tokens_layout width level x solid [] (by simp)
  rw [List.append_nil] at all
  rw [read, all, tokens, Position.finish, List.append_nil]
  exact assemble_alone x

theorem trim_layout_list (items : List Sexp) :
    Text.trim (layout width level (.list items)).toList =
      (layout width level (.list items)).toList := by
  rw [layout, String.toList_append, String.toList_append]
  refine Text.strip_eq_self ?_ ?_
  · rintro c ⟨⟩
    decide
  · rw [show ")".toList = [')'] from rfl, List.getLast?_concat]
    rintro c ⟨⟩
    decide

theorem trim_layout (plain : ∀ s, .atom s ∈ x.flat → Plain s) :
    Text.trim (layout width level x).toList = (layout width level x).toList := by
  cases x with
  | list items => exact trim_layout_list width level items
  | atom s =>
    have plain : Plain s := plain s (by simp [flat])
    rw [layout, plain.solid.toShown.bareText_eq]
    exact Text.strip_eq_self (fun c hc => (isEdge_iff.1 (plain.first c hc)).1)
      fun c hc => (isEdge_iff.1 (plain.last c hc)).1

theorem layout_ne_nil (shown : ∀ s, .atom s ∈ x.flat → Shown s) :
    (layout width level x).toList ≠ [] := by
  cases x with
  | list items => simp [layout]
  | atom s =>
    have shown : Shown s := shown s (by simp [flat])
    rw [layout, shown.bareText_eq]
    exact shown.nonempty

end Sexp

end LazyMatrix
