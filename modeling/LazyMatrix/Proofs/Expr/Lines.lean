import LazyMatrix.Proofs.Pattern.RoundTrip
import Mathlib.Data.List.DropRight

/-! Where a printed expression breaks its lines. Only a list that is too long for the width is
broken, and then between all its items, so nothing is broken inside a list that is not. Line breaks,
and the blanks behind them, are all that the width decides. -/

namespace LazyMatrix

namespace Text

/-- The text with each line break, and the blanks behind it, made one blank. The flag says that the
text comes behind a line break. -/
def joinFrom : (broken : Bool) → List Char → List Char
  | _, [] => []
  | broken, c :: cs =>
      if c = '\n' then ' ' :: joinFrom true cs
      else if broken && c = ' ' then joinFrom true cs
      else c :: joinFrom false cs

def joinLines (text : String) : String := String.ofList (joinFrom false text.toList)

structure OneLine (cs : List Char) : Prop where
  first : ∃ c ∈ cs.head?, c ≠ ' '
  inside : '\n' ∉ cs

variable {cs rest : List Char} {p : Char → Bool}

theorem not_mem_joinFrom (broken : Bool) (cs : List Char) : '\n' ∉ joinFrom broken cs := by
  induction cs generalizing broken with
  | nil => simp [joinFrom]
  | cons c cs ih =>
    rw [joinFrom]
    split
    · simp [ih true]
    · next other =>
      split
      · exact ih true
      · simp [ih false, Ne.symm other]

theorem joinFrom_append (inside : '\n' ∉ cs) :
    joinFrom false (cs ++ rest) = cs ++ joinFrom false rest := by
  induction cs with
  | nil => rfl
  | cons c cs ih =>
    obtain ⟨other, inside⟩ : '\n' ≠ c ∧ '\n' ∉ cs := by simpa using inside
    rw [List.cons_append, joinFrom, if_neg (Ne.symm other), Bool.false_and,
      if_neg Bool.false_ne_true, ih inside, List.cons_append]

theorem OneLine.joinFrom_append (line : OneLine cs) (broken : Bool) :
    joinFrom broken (cs ++ rest) = cs ++ joinFrom false rest := by
  obtain ⟨⟨c, hc, visible⟩, inside⟩ := line
  obtain ⟨cs, rfl⟩ := List.head?_eq_some_iff.1 hc
  obtain ⟨other, inside⟩ : '\n' ≠ c ∧ '\n' ∉ cs := by simpa using inside
  rw [List.cons_append, joinFrom, if_neg (Ne.symm other), if_neg (by simp [visible]),
    Text.joinFrom_append inside, List.cons_append]

theorem joinFrom_blanks (n : Nat) :
    joinFrom true (List.replicate n ' ' ++ rest) = joinFrom true rest := by
  induction n with
  | zero => rfl
  | succ n ih => exact ih

theorem strip_cons_of_pos {a : Char} (ha : p a = true) : strip p (a :: cs) = strip p cs := by
  rw [strip, List.dropWhile_cons_of_pos ha, strip]

theorem strip_cons_of_neg {c : Char} (hc : p c = false) :
    strip p (c :: cs) = c :: cs.rdropWhile p := by
  rw [strip, List.dropWhile_cons_of_neg (by simp [hc]), List.reverse_cons, List.dropWhile_append,
    List.rdropWhile]
  split
  · next none => simp [hc, List.isEmpty_iff.1 none]
  · rw [List.reverse_append]
    rfl

end Text

namespace Sexp

open Text (OneLine joinFrom)

theorem bareText_of_toList {s : String} {c : Char} {cs : List Char} (chars : s.toList = c :: cs)
    (hc : c ≠ '"') : ∃ kept, (bareText s).toList = c :: kept ∧ ∀ d ∈ kept, d ∈ cs ∨ d = '"' := by
  rw [bareText, String.toList_ofList, atomText]
  split
  · have quoted : ("\"" ++ s ++ "\"").toList = '"' :: c :: (cs ++ ['"']) := by
      rw [String.toList_append, String.toList_append, chars]
      rfl
    rw [quoted, Text.strip_cons_of_pos (by decide), Text.strip_cons_of_neg (by simpa using hc)]
    refine ⟨_, rfl, fun d hd => ?_⟩
    simpa using (List.rdropWhile_prefix _ _).subset hd
  · rw [chars, Text.strip_cons_of_neg (by simpa using hc)]
    exact ⟨_, rfl, fun d hd => .inl ((List.rdropWhile_prefix _ _).subset hd)⟩

theorem Plain.oneLine {s : String} (plain : Plain s) : OneLine (bareText s).toList := by
  rw [plain.solid.toShown.bareText_eq]
  obtain ⟨c, cs, chars⟩ := List.exists_cons_of_ne_nil plain.nonempty
  have blank := (isEdge_iff.1 (plain.first c (by simp [chars]))).1
  refine ⟨⟨c, by simp [chars], ?_⟩, fun mem => ?_⟩
  · rintro rfl
    exact absurd blank (by decide)
  · exact absurd (plain.inside _ mem) (by decide)

theorem oneLine_of_isName {name : String} (isName : Wildcard.isName name = true)
    (inside : '\n' ∉ name.toList) : OneLine (bareText name).toList := by
  obtain ⟨c, cs, chars⟩ := Wildcard.toList_of_isName isName
  obtain ⟨kept, bare, within⟩ := bareText_of_toList chars (by decide)
  rw [bare]
  refine ⟨⟨'?', rfl, by decide⟩, fun mem => ?_⟩
  obtain mem | same := within '\n' ((List.mem_cons.1 mem).resolve_left (by decide))
  · exact inside (chars ▸ List.mem_cons_of_mem _ mem)
  · cases same

theorem layoutItems_eq (width level : Nat) (broken : Bool) : (items : List Sexp) →
    layoutItems width level broken items =
      (separator broken level).intercalate (items.map (layout width (level + 1)))
  | [] => by rw [layoutItems, List.map_nil, String.intercalate_nil]
  | [x] => by rw [layoutItems, List.map_singleton, String.intercalate_singleton]
  | x :: y :: rest => by
    rw [layoutItems, layoutItems_eq width level broken (y :: rest), List.map_cons, List.map_cons,
      List.map_cons, String.intercalate_cons_cons]

theorem size_le_itemsText {x : Sexp} : {items : List Sexp} → x ∈ items →
    x.text.utf8ByteSize ≤ (itemsText items).utf8ByteSize
  | [y], mem => by
    obtain rfl := List.mem_singleton.1 mem
    rw [itemsText]
  | y :: z :: rest, mem => by
    rw [itemsText, String.utf8ByteSize_append, String.utf8ByteSize_append]
    obtain rfl | mem := List.mem_cons.1 mem
    · omega
    · have := size_le_itemsText mem
      omega

theorem size_lt_of_mem {x : Sexp} {items : List Sexp} (mem : x ∈ items) :
    x.text.utf8ByteSize < (list items).text.utf8ByteSize := by
  have := size_le_itemsText mem
  rw [text, String.utf8ByteSize_append, String.utf8ByteSize_append]
  have : 0 < "(".utf8ByteSize := by decide
  omega

/-- A text of an expression at this depth. A list is on one line if that has no more bytes than the
width allows, with a blank between each two items, and then so are the lists in it. Otherwise there
is a line break between each two items, with two blanks behind it for each list that they are in. -/
inductive LaidOut (width : Nat) : (mayBreak : Bool) → (depth : Nat) → Sexp → String → Prop where
  | atom {mayBreak : Bool} {depth : Nat} (s : String) :
      LaidOut width mayBreak depth (.atom s) (bareText s)
  | oneLine {mayBreak : Bool} {depth : Nat} {items : List (Sexp × String)}
      (fits : (Sexp.list (items.map Prod.fst)).text.utf8ByteSize ≤ width)
      (each : ∀ x ∈ items, LaidOut width false (depth + 1) x.1 x.2) :
      LaidOut width mayBreak depth (.list (items.map Prod.fst))
        ("(" ++ " ".intercalate (items.map Prod.snd) ++ ")")
  | lines {depth : Nat} {items : List (Sexp × String)}
      (exceeds : width < (Sexp.list (items.map Prod.fst)).text.utf8ByteSize)
      (each : ∀ x ∈ items, LaidOut width true (depth + 1) x.1 x.2) :
      LaidOut width true depth (.list (items.map Prod.fst))
        ("(" ++ ("\n" ++ String.ofList (List.replicate (2 * (depth + 1)) ' ')).intercalate
          (items.map Prod.snd) ++ ")")

section

variable {width depth : Nat} {items : List Sexp} {f : Sexp → String}

theorem laidOut_oneLine (mayBreak : Bool) (fits : (list items).text.utf8ByteSize ≤ width)
    (each : ∀ x ∈ items, LaidOut width false (depth + 1) x (f x)) :
    LaidOut width mayBreak depth (.list items) ("(" ++ " ".intercalate (items.map f) ++ ")") := by
  have sources : (items.map fun x => (x, f x)).map Prod.fst = items := by simp [Function.comp_def]
  have result : LaidOut width mayBreak depth _ _ :=
    .oneLine (sources.symm ▸ fits) (List.forall_mem_map.2 each)
  rwa [sources, List.map_map] at result

theorem laidOut_lines (exceeds : width < (list items).text.utf8ByteSize)
    (each : ∀ x ∈ items, LaidOut width true (depth + 1) x (f x)) :
    LaidOut width true depth (.list items)
      ("(" ++ (separator true (depth + 1)).intercalate (items.map f) ++ ")") := by
  have sources : (items.map fun x => (x, f x)).map Prod.fst = items := by simp [Function.comp_def]
  have result := LaidOut.lines (sources.symm ▸ exceeds) (List.forall_mem_map.2 each)
  rwa [sources, List.map_map] at result

end

mutual

theorem laidOut_layout (width depth : Nat) : (x : Sexp) → (mayBreak : Bool) →
    (mayBreak = false → x.text.utf8ByteSize ≤ width) →
    LaidOut width mayBreak depth x (layout width (depth + 1) x)
  | .atom s, mayBreak, _ => by
    rw [layout]
    exact .atom s
  | .list items, mayBreak, fits => by
    rw [layout, layoutItems_eq, isBroken]
    by_cases exceeds : width < (list items).text.utf8ByteSize
    · have each := laidOut_layouts width (depth + 1) items true nofun
      cases mayBreak with
      | true =>
        rw [decide_eq_true exceeds]
        exact laidOut_lines exceeds each
      | false => exact absurd (fits rfl) (Nat.not_le.2 exceeds)
    · have fits := Nat.le_of_not_lt exceeds
      have each := laidOut_layouts width (depth + 1) items false fun _ x hx =>
        Nat.le_trans (Nat.le_of_lt (size_lt_of_mem hx)) fits
      rw [decide_eq_false exceeds]
      exact laidOut_oneLine mayBreak fits each

theorem laidOut_layouts (width depth : Nat) : (items : List Sexp) → (mayBreak : Bool) →
    (mayBreak = false → ∀ x ∈ items, x.text.utf8ByteSize ≤ width) →
    ∀ x ∈ items, LaidOut width mayBreak depth x (layout width (depth + 1) x)
  | [], _, _ => by simp
  | x :: rest, mayBreak, fits =>
    List.forall_mem_cons.2 ⟨laidOut_layout width depth x mayBreak fun h => fits h x (.head _),
      laidOut_layouts width depth rest mayBreak fun h y hy => fits h y (.tail _ hy)⟩

end

theorem joinFrom_separator (broken : Bool) (level : Nat) (rest : List Char) :
    joinFrom false ((separator broken level).toList ++ rest) = ' ' :: joinFrom broken rest := by
  cases broken with
  | false =>
    have blank : (separator false level).toList = [' '] := by simp [separator]
    rw [blank]
    rfl
  | true =>
    have chars : (separator true level).toList = '\n' :: List.replicate (2 * level) ' ' := by
      simp [separator, indentation]
    rw [chars]
    exact congrArg (' ' :: ·) (Text.joinFrom_blanks (2 * level))

mutual

theorem joinFrom_layout (width level width' level' : Nat) : (x : Sexp) →
    (∀ s, .atom s ∈ x.flat → OneLine (bareText s).toList) → x.text.utf8ByteSize ≤ width' →
    (broken : Bool) → (rest : List Char) →
    joinFrom broken ((layout width level x).toList ++ rest) =
      (layout width' level' x).toList ++ joinFrom false rest
  | .atom s, atoms, _, broken, rest => by
    rw [layout, layout]
    exact (atoms s (by simp [flat])).joinFrom_append broken
  | .list items, atoms, fits, broken, rest => by
    have whole : isBroken width' (list items) = false := decide_eq_false (Nat.not_lt.2 fits)
    have inner := joinFrom_layoutItems width level (isBroken width (list items)) width' level' items
      (fun s hs => atoms s (by simp [flat, hs]))
      (fun x hx => Nat.le_trans (Nat.le_of_lt (size_lt_of_mem hx)) fits) false (fun _ => rfl)
      (')' :: rest)
    have opening : OneLine ['('] := ⟨⟨'(', rfl, by decide⟩, by decide⟩
    simp only [layout, whole, String.toList_append, List.append_assoc]
    exact (opening.joinFrom_append broken).trans (congrArg ('(' :: ·) inner)

theorem joinFrom_layoutItems (width level : Nat) (wide : Bool) (width' level' : Nat) :
    (items : List Sexp) → (∀ s, .atom s ∈ flatItems items → OneLine (bareText s).toList) →
    (∀ x ∈ items, x.text.utf8ByteSize ≤ width') → (broken : Bool) →
    (items = [] → broken = false) → (rest : List Char) →
    joinFrom broken ((layoutItems width level wide items).toList ++ rest) =
      (layoutItems width' level' false items).toList ++ joinFrom false rest
  | [], _, _, broken, empty, rest => by
    -- after a line break blanks of `rest` would be dropped, so no break comes before nothing
    rw [empty rfl]
    rfl
  | [x], atoms, fits, broken, _, rest => by
    rw [layoutItems, layoutItems]
    exact joinFrom_layout _ _ _ _ x (fun s hs => atoms s (by simp [flatItems, hs]))
      (fits x (.head _)) broken rest
  | x :: y :: others, atoms, fits, broken, _, rest => by
    have first := joinFrom_layout width (level + 1) width' (level' + 1) x
      (fun s hs => atoms s (by simp [flatItems, hs])) (fits x (.head _)) broken
      ((separator wide level).toList ++
        ((layoutItems width level wide (y :: others)).toList ++ rest))
    have after := joinFrom_layoutItems width level wide width' level' (y :: others)
      (fun s hs => atoms s (by rw [flatItems]; simp [hs])) (fun z hz => fits z (.tail _ hz)) wide
      nofun rest
    have blank : (separator false level').toList = [' '] := by simp [separator]
    simp only [layoutItems, String.toList_append, List.append_assoc, blank]
    rw [first, joinFrom_separator, after, List.singleton_append]

end

variable {x : Sexp} {width : Nat}

theorem newline_mem_layout {y z : Sexp} {rest : List Sexp} (level : Nat)
    (exceeds : width < (list (y :: z :: rest)).text.utf8ByteSize) :
    '\n' ∈ (layout width level (.list (y :: z :: rest))).toList := by
  simp [layout, layoutItems, isBroken, exceeds, separator]

theorem newline_not_mem_layout (atoms : ∀ s, .atom s ∈ x.flat → OneLine (bareText s).toList)
    (fits : x.text.utf8ByteSize ≤ width) (level : Nat) : '\n' ∉ (layout width level x).toList := by
  have same := joinFrom_layout width level width level x atoms fits false []
  simp only [joinFrom, List.append_nil] at same
  exact same ▸ Text.not_mem_joinFrom _ _

theorem joinLines_layout (atoms : ∀ s, .atom s ∈ x.flat → OneLine (bareText s).toList)
    {width' : Nat} (fits : x.text.utf8ByteSize ≤ width') (width level level' : Nat) :
    Text.joinLines (layout width level x) = layout width' level' x := by
  have same := joinFrom_layout width level width' level' x atoms fits false []
  rw [joinFrom, List.append_nil, List.append_nil] at same
  rw [Text.joinLines, same, String.ofList_toList]

theorem joinLines_of_not_mem {text : String} (inside : '\n' ∉ text.toList) :
    Text.joinLines text = text := by
  have same : joinFrom false (text.toList ++ []) = text.toList ++ [] := Text.joinFrom_append inside
  rw [List.append_nil] at same
  rw [Text.joinLines, same, String.ofList_toList]

end Sexp

namespace Expr

variable {e : Expr}

theorem toSexp_list {items : List Sexp} (list : e.toSexp = .list items) :
    ∃ x y rest, items = x :: y :: rest := by
  cases e with
  | leaf h x =>
    cases x with
    | future f =>
      cases list
      exact ⟨_, _, _, rfl⟩
    | literal | wildcard => cases list
  | unary h op x =>
    cases op <;>
    · cases list
      exact ⟨_, _, _, rfl⟩
  | binary h op l r =>
    cases list
    exact ⟨_, _, _, rfl⟩

/-- An expression is printed on several lines just if it prints as a list whose text has more bytes
than the width allows. On one line it is as it is without a width, and that is also what is left
when its lines are joined, if its text has a size at all. Each list in it is broken between all its
items or between none of them, and in a list on one line none is broken. -/
theorem pretty_breaks (e : Expr) (width : Nat) (size : width < sizeBound)
    (names : ∀ w ∈ e.wildcardLeaves, Wildcard.isName w.name = true ∧ '\n' ∉ w.name.toList) :
    ('\n' ∈ (e.pretty width).toList ↔
      (∃ items, e.toSexp = .list items) ∧ width < e.toSexp.text.utf8ByteSize) ∧
    ('\n' ∉ (e.pretty width).toList → e.pretty width = e.text) ∧
    (e.toSexp.text.utf8ByteSize < sizeBound → Text.joinLines (e.pretty width) = e.text) ∧
    Sexp.LaidOut width true 0 e.toSexp (e.pretty width) := by
  have atoms : ∀ s, .atom s ∈ e.toSexp.flat → Text.OneLine (Sexp.bareText s).toList :=
    forall_atoms_toSexp (fun _ plain => plain.oneLine) fun w hw =>
      Sexp.oneLine_of_isName (names w hw).1 (names w hw).2
  have joined (fits : e.toSexp.text.utf8ByteSize < sizeBound) :
      Text.joinLines (e.pretty width) = e.text :=
    Sexp.joinLines_layout atoms (Nat.le_sub_one_of_lt fits) width 1 0
  have plain {s : String} (atom : e.toSexp = .atom s) : Text.OneLine (e.pretty width).toList := by
    rw [pretty, atom, Sexp.layout]
    exact atoms s (by simp [atom, Sexp.flat])
  refine ⟨⟨fun breaks => ?_, fun ⟨⟨items, list⟩, exceeds⟩ => ?_⟩, fun inside => ?_, joined,
    Sexp.laidOut_layout width 0 e.toSexp true nofun⟩
  · refine ⟨?_, Nat.lt_of_not_le fun fits => Sexp.newline_not_mem_layout atoms fits 1 breaks⟩
    cases shape : e.toSexp with
    | atom s => exact absurd breaks (plain shape).inside
    | list items => exact ⟨items, rfl⟩
  · obtain ⟨x, y, rest, rfl⟩ := toSexp_list list
    rw [pretty, list]
    exact Sexp.newline_mem_layout 1 (list ▸ exceeds)
  · cases shape : e.toSexp with
    | atom s => rw [pretty, text, Sexp.inline, shape, Sexp.layout, Sexp.layout]
    | list items =>
      obtain ⟨x, y, rest, rfl⟩ := toSexp_list shape
      have fits : e.toSexp.text.utf8ByteSize ≤ width := by
        refine Nat.le_of_not_lt fun exceeds => inside ?_
        rw [pretty, shape]
        exact Sexp.newline_mem_layout 1 (shape ▸ exceeds)
      rw [← joined (Nat.lt_of_le_of_lt fits size), Sexp.joinLines_of_not_mem inside]

def quotedSum : Expr :=
  .unary 3 .transpose (.binary 2 (.elementwise .add) (.leaf 0 (.wildcard ⟨0, "?a b"⟩))
    (.leaf 1 (.wildcard ⟨1, "?c\""⟩)))

/-- The sum is broken for the sake of marks that are not printed. -/
example : quotedSum.pretty 12 = "(t\n  (+\n    ?a b\n    ?c))" := by decide

theorem quotedSum_pretty_breaks :
    (∀ w ∈ quotedSum.wildcardLeaves, Wildcard.isName w.name = true ∧ '\n' ∉ w.name.toList) ∧
    12 < quotedSum.toSexp.text.utf8ByteSize ∧ quotedSum.toSexp.text.utf8ByteSize < sizeBound ∧
    '\n' ∈ (quotedSum.pretty 12).toList ∧
    Text.joinLines (quotedSum.pretty 12) = quotedSum.text := by
  have names : ∀ w ∈ quotedSum.wildcardLeaves,
      Wildcard.isName w.name = true ∧ '\n' ∉ w.name.toList := by decide
  have exceeds : 12 < quotedSum.toSexp.text.utf8ByteSize := by decide
  have size : quotedSum.toSexp.text.utf8ByteSize < sizeBound := by decide
  obtain ⟨breaks, -, joined, -⟩ := pretty_breaks quotedSum 12 (by decide) names
  exact ⟨names, exceeds, size, breaks.2 ⟨⟨_, rfl⟩, exceeds⟩, joined size⟩

end Expr

end LazyMatrix
