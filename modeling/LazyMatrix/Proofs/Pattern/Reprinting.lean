import LazyMatrix.Proofs.Pattern.RoundTrip

/-! Patterns that were read, printed and read again. A printed name has no quotation marks around it,
so a name that only quotation marks hold together comes apart when it is read; every other pattern
comes back. -/

namespace LazyMatrix

namespace Sexp

variable {s : String}

theorem Shown.tokens_head (shown : Shown s) {cs rest : List Char} (within : cs <+: s.toList)
    (nonempty : cs ≠ []) (ends : ∀ c ∈ rest.head?, endsAtom c = true) :
    ∃ short more, tokens .gap (cs ++ rest) = .atom short :: more ∧
      (short = s → cs = s.toList ∧ ∀ c ∈ s.toList, endsAtom c = false) := by
  cases found : cs.find? endsAtom with
  | none =>
    have inside : ∀ c ∈ cs, endsAtom c = false := by simpa using found
    refine ⟨_, _, shown.tokens_eq within nonempty inside ends, ?_⟩
    rintro rfl
    rw [String.toList_ofList]
    exact ⟨rfl, inside⟩
  | some d =>
    obtain ⟨ending, whole, tail, rfl, inside⟩ := List.find?_eq_some_iff_append.1 found
    have whole_within : whole <+: s.toList := (List.prefix_append ..).trans within
    have taken : whole ≠ [] := by
      rintro rfl
      obtain ⟨after, chars⟩ := within
      have first := (shown.first d (by simp [← chars])).2
      simp [first] at ending
    refine ⟨String.ofList whole, tokens .gap (d :: tail ++ rest), ?_, ?_⟩
    · rw [List.append_assoc]
      exact shown.tokens_eq whole_within taken (by simpa using inside) (by simpa using ending)
    · rintro rfl
      have := within.length_le
      simp at this

/-- An atom that the reader ends too soon. -/
def Broken (s : String) : Prop := ∃ c ∈ s.toList, endsAtom c = true

theorem Shown.solid (shown : Shown s) (whole : ¬ Broken s) : Solid s :=
  ⟨shown, by simpa [Broken] using whole⟩

/-- The tokens follow those of an expression up to a broken atom, of which they have a part. -/
def Cut (flat found : List Token) : Prop :=
  ∃ before s after short more, flat = before ++ .atom s :: after ∧
    found = before ++ .atom short :: more ∧ Broken s ∧ short ≠ s

variable {flat found : List Token} {rest : List Char}

theorem Cut.append_left (h : Cut flat found) (ts : List Token) : Cut (ts ++ flat) (ts ++ found) := by
  obtain ⟨before, s, after, short, more, rfl, rfl, broken, other⟩ := h
  exact ⟨ts ++ before, s, after, short, more, by simp, by simp, broken, other⟩

theorem Cut.append_right (h : Cut flat found) (ts : List Token) : Cut (flat ++ ts) found := by
  obtain ⟨before, s, after, short, more, rfl, rfl, broken, other⟩ := h
  exact ⟨before, s, after ++ ts, short, more, by simp, rfl, broken, other⟩

theorem Shown.cut (shown : Shown s) (broken : Broken s)
    (ends : ∀ c ∈ rest.head?, endsAtom c = true) :
    Cut [.atom s] (tokens .gap (s.toList ++ rest)) := by
  obtain ⟨short, more, head, whole⟩ := shown.tokens_head List.prefix_rfl shown.nonempty ends
  refine ⟨[], s, [], short, more, rfl, head, broken, fun same => ?_⟩
  obtain ⟨c, hc, ending⟩ := broken
  simp [(whole same).2 c hc] at ending

mutual

theorem cut_layout (width level : Nat) : (x : Sexp) → (∀ s, .atom s ∈ x.flat → Shown s) →
    (∃ s, .atom s ∈ x.flat ∧ Broken s) → (rest : List Char) →
    (∀ c ∈ rest.head?, endsAtom c = true) →
    Cut x.flat (tokens .gap ((layout width level x).toList ++ rest))
  | .atom s, shown, broken, rest, ends => by
    have shown : Shown s := shown s (by simp [flat])
    obtain ⟨_, mem, broken⟩ := broken
    obtain rfl := Token.atom.inj (List.mem_singleton.1 mem)
    rw [layout, shown.bareText_eq, flat]
    exact shown.cut broken ends
  | .list items, shown, broken, rest, _ => by
    have inner := cut_layoutItems width level (isBroken width (.list items)) items
      (fun s hs => shown s (by simp [flat, hs])) (by simpa [flat] using broken) (')' :: rest)
      (by simp [endsAtom])
    simp only [layout, String.toList_append, List.append_assoc, flat]
    exact (inner.append_right [.closing]).append_left [.opening]

theorem cut_layoutItems (width level : Nat) (indented : Bool) : (items : List Sexp) →
    (∀ s, .atom s ∈ flatItems items → Shown s) →
    (∃ s, .atom s ∈ flatItems items ∧ Broken s) → (rest : List Char) →
    (∀ c ∈ rest.head?, endsAtom c = true) →
    Cut (flatItems items) (tokens .gap ((layoutItems width level indented items).toList ++ rest))
  | [], _, broken, _, _ => by simp [flatItems] at broken
  | [x], shown, broken, rest, ends => by
    simp only [flatItems, List.append_nil] at shown broken ⊢
    rw [layoutItems]
    exact cut_layout width (level + 1) x shown broken rest ends
  | x :: y :: others, shown, broken, rest, ends => by
    have shownx : ∀ s, .atom s ∈ x.flat → Shown s := fun s hs => shown s (by simp [flatItems, hs])
    have between : ∀ c ∈ ((separator indented level).toList ++
        ((layoutItems width level indented (y :: others)).toList ++ rest)).head?,
        endsAtom c = true := separator_ends indented level
    rw [layoutItems, String.toList_append, String.toList_append, List.append_assoc,
      List.append_assoc, flatItems]
    by_cases first : ∃ s, .atom s ∈ x.flat ∧ Broken s
    · exact (cut_layout width (level + 1) x shownx first _ between).append_right _
    · have solid (s : String) (hs : .atom s ∈ x.flat) : Solid s :=
        (shownx s hs).solid fun broken => first ⟨s, hs, broken⟩
      obtain ⟨s, hs, brokens⟩ := broken
      have later : .atom s ∈ flatItems (y :: others) := by
        rw [flatItems, List.mem_append] at hs
        exact hs.resolve_left fun hs => first ⟨s, hs, brokens⟩
      rw [tokens_layout width (level + 1) x solid _ between, tokens_separator]
      exact (cut_layoutItems width level indented (y :: others)
        (fun s hs => shown s (by rw [flatItems]; simp [hs])) ⟨s, later, brokens⟩ rest
        ends).append_left _

end

end Sexp

namespace Pattern

/-- `x` spells `e`, the constants of scales by any numerals. -/
inductive Spells : Sexp → Expr → Prop where
  | wildcard {h : Nat} {w : Wildcard} : Spells (.atom w.name) (.leaf h (.wildcard w))
  | unary {h : Nat} {op : UnaryOp} {x : Sexp} {e : Expr} (other : op.kind ≠ .scale)
      (operand : Spells x e) : Spells (.list [.atom op.kind.symbol, x]) (.unary h op e)
  | scale {h : Nat} {c : Float} {numeral : String} {x : Sexp} {e : Expr} (operand : Spells x e) :
      Spells (.list [.atom Kind.scale.symbol, .atom numeral, x]) (.unary h (.scale c) e)
  | binary {h : Nat} {op : BinaryOp} {x y : Sexp} {l r : Expr} (left : Spells x l)
      (right : Spells y r) : Spells (.list [.atom op.kind.symbol, x, y]) (.binary h op l r)

theorem Head.ofWord?_unary {word : String} {op : UnaryOp} (h : ofWord? word = some (.unary op)) :
    op.kind ≠ .scale ∧ word = op.kind.symbol := by
  unfold ofWord? at h
  split at h <;> cases h <;> exact ⟨nofun, rfl⟩

theorem Head.ofWord?_binary {word : String} {op : BinaryOp}
    (h : ofWord? word = some (.binary op)) : word = op.kind.symbol := by
  unfold ofWord? at h
  split at h <;> cases h <;> rfl

theorem Head.ofWord?_scale {word : String} (h : ofWord? word = some .scale) :
    word = Kind.scale.symbol := by
  unfold ofWord? at h
  split at h <;> cases h
  rfl

theorem spells_of_run_atom {word : String} {s s' : Session} {e : Expr}
    (ran : s.run (ofSexp (.atom word)).run = (.ok e, s')) :
    Spells (.atom word) e ∧ s.names.entries <+: s'.names.entries ∧
      ∀ w ∈ e.wildcardLeaves, s'.names.Knows w := by
  rw [ofSexp, ofWord] at ran
  split at ran
  · obtain ⟨result, s₁, read, made⟩ := Session.exists_of_run_bind ran
    rw [Session.run_attempt_lift] at read
    cases isName : Wildcard.isName word with
    | false =>
      have refused : s.run (Wildcard.read word).run = _ := Session.run_read_malformed isName s
      rw [refused] at read
      cases read
      cases made
    | true =>
      have looked : s.run (Wildcard.read word).run = _ := Session.run_read isName s
      rw [looked] at read
      cases read
      cases made
      refine ⟨?_, s.names.intern_prefix word, ?_⟩
      · have spells := @Spells.wildcard s.next (s.names.intern word).1
        rwa [Names.intern_name] at spells
      · simp only [Expr.wildcardLeaves, List.mem_singleton, forall_eq]
        exact s.names.knows_intern isName
  · cases ran

theorem spells_of_run {x : Sexp} {s s' : Session} {e : Expr}
    (ran : s.run (ofSexp x).run = (.ok e, s')) :
    Spells x e ∧ s.names.entries <+: s'.names.entries ∧
      ∀ w ∈ e.wildcardLeaves, s'.names.Knows w := by
  induction x using ofSexp.induct generalizing s s' e with
  | case1 word => exact spells_of_run_atom ran
  | case2 | case3 =>
    rw [ofSexp] at ran
    cases ran
  | case4 word args none =>
    rw [ofSexp, none] at ran
    cases ran
  | case5 word op x head ih =>
    rw [ofSexp, head] at ran
    obtain ⟨y, s₁, operand, made⟩ := Session.exists_of_run_bind ran
    obtain ⟨spells, le, known⟩ := ih operand
    obtain ⟨other, rfl⟩ := Head.ofWord?_unary head
    cases made
    exact ⟨.unary other spells, le, known⟩
  | case6 word op x y head ihx ihy =>
    rw [ofSexp, head] at ran
    obtain ⟨l, s₁, left, rest⟩ := Session.exists_of_run_bind ran
    obtain ⟨r, s₂, right, made⟩ := Session.exists_of_run_bind rest
    obtain ⟨spellsl, le, knownl⟩ := ihx left
    obtain ⟨spellsr, le', knownr⟩ := ihy right
    obtain rfl := Head.ofWord?_binary head
    cases made
    refine ⟨.binary spellsl spellsr, le.trans le', fun w hw => ?_⟩
    obtain hw | hw := List.mem_append.1 hw
    · exact (knownl w hw).mono le'
    · exact knownr w hw
  | case7 word c x value constant head ih =>
    rw [ofSexp, head] at ran
    simp only [constant] at ran
    obtain ⟨y, s₁, operand, made⟩ := Session.exists_of_run_bind ran
    obtain ⟨spells, le, known⟩ := ih operand
    obtain rfl := Head.ofWord?_scale head
    cases c with
    | list items => cases constant
    | atom numeral =>
      cases made
      exact ⟨.scale spells, le, known⟩
  | case8 word c x error constant head =>
    rw [ofSexp, head] at ran
    simp only [constant] at ran
    cases ran
  | case9 word head args unary binary scale found =>
    rw [ofSexp, found] at ran
    simp only at ran
    cases ran

theorem spells_of_read {text : String} {s s' : Session} {e : Expr}
    (ran : s.run (read text).run = (.ok e, s')) :
    ∃ x, Text.trim text.toList ≠ [] ∧ Sexp.read (Text.trim text.toList) = .ok x ∧ Spells x e ∧
      ∀ w ∈ e.wildcardLeaves, s'.names.Knows w := by
  rw [read] at ran
  split at ran
  · cases ran
  · next nonempty =>
    split at ran
    · next x found =>
      obtain ⟨spells, -, known⟩ := spells_of_run ran
      exact ⟨x, by simpa using nonempty, found, spells, known⟩
    · cases ran

namespace Spells

variable {x : Sexp} {e : Expr}

theorem wild (h : Spells x e) : e.Wild := by
  induction h with
  | wildcard => trivial
  | unary _ _ ih | scale _ ih => exact ih
  | binary _ _ ihl ihr => exact ⟨ihl, ihr⟩

theorem flat_forall₂ (h : Spells x e) : List.Forall₂
    (fun t u => t = u ∨ ∃ c, u = .atom (Decimal.write .constant c)) x.flat e.toSexp.flat := by
  have same (ts : List Sexp.Token) : List.Forall₂
      (fun t u => t = u ∨ ∃ c, u = .atom (Decimal.write .constant c)) ts ts :=
    List.forall₂_same.2 fun _ _ => .inl rfl
  have closing := same [.closing]
  induction h with
  | wildcard => exact same _
  | @unary _ op _ _ other _ ih =>
    rw [Expr.toSexp_unary other]
    simp only [Sexp.flat, Sexp.flatItems, List.append_nil, List.singleton_append]
    exact .cons (.inl rfl) (.cons (.inl rfl) (List.rel_append ih closing))
  | @scale _ c _ _ _ _ ih =>
    simp only [Expr.toSexp, Sexp.flat, Sexp.flatItems, List.append_nil, List.singleton_append]
    exact .cons (.inl rfl) (.cons (.inl rfl) (.cons (.inr ⟨c, rfl⟩) (List.rel_append ih closing)))
  | @binary _ op _ _ _ _ _ _ ihl ihr =>
    simp only [Expr.toSexp, Sexp.flat, Sexp.flatItems, List.append_nil, List.singleton_append]
    exact .cons (.inl rfl) (.cons (.inl rfl) (List.rel_append (List.rel_append ihl ihr) closing))

theorem not_cut (h : Spells x e) (rest : List Sexp.Token) :
    ¬ Sexp.Cut e.toSexp.flat (x.flat ++ rest) := by
  rintro ⟨before, s, after, short, more, flat, found, broken, other⟩
  obtain ⟨length, same⟩ := List.forall₂_iff_get.1 h.flat_forall₂
  have inside : before.length < e.toSexp.flat.length := by simp [flat]
  have there : e.toSexp.flat.get ⟨before.length, inside⟩ = .atom s := by simp [flat]
  have taken : x.flat.get ⟨before.length, length ▸ inside⟩ = .atom short := by
    have at_index : (x.flat ++ rest)[before.length]? = some (.atom short) := by simp [found]
    rw [List.getElem?_append_left (length ▸ inside)] at at_index
    exact (List.getElem_eq_iff _).2 at_index
  obtain same | ⟨c, numeral⟩ := same _ (length ▸ inside) inside
  · rw [there, taken] at same
    exact other (Sexp.Token.atom.inj same)
  · rw [there] at numeral
    obtain rfl := Sexp.Token.atom.inj numeral
    obtain ⟨d, hd, ending⟩ := broken
    simp [(Decimal.plain_write c).inside d hd] at ending

end Spells

end Pattern

theorem Text.trim_prefix {cs : List Char} (first : ∀ c ∈ cs.head?, isBlank c = false) :
    trim cs <+: cs ∧ (trim cs = cs → ∀ c ∈ cs.getLast?, isBlank c = false) := by
  rw [trim, strip, dropWhile_of_head first]
  refine ⟨?_, fun same c hc => ?_⟩
  · have suffix : cs.reverse.dropWhile isBlank <:+ cs.reverse := List.dropWhile_suffix isBlank
    rwa [← List.reverse_prefix, List.reverse_reverse] at suffix
  · have kept := List.reverse_eq_iff.1 same
    rw [← List.head?_reverse] at hc
    cases back : cs.reverse with
    | nil => simp [back] at hc
    | cons d ds =>
      obtain rfl : d = c := by simpa [back] using hc
      rw [back] at kept
      by_contra blank
      simp [blank] at kept

/-- The name is not taken apart where it is printed without quotation marks. -/
def Wildcard.Whole (w : Wildcard) : Prop := ∀ c ∈ w.name.toList, Sexp.endsAtom c = false

namespace Expr

variable {e e' : Expr}

theorem toSexp_erase (e : Expr) : e.erase.toSexp = e.toSexp := by
  induction e with
  | leaf h x => rfl
  | unary h op x ih => cases op <;> simp [erase, toSexp, ih]
  | binary h op l r ihl ihr => simp [erase, toSexp, ihl, ihr]

/-- A pattern is no bare name that ends in white space, which is cut off before anything is read. -/
def Trimmed (e : Expr) : Prop :=
  ∀ h w, e = .leaf h (.wildcard w) → ∀ c ∈ w.name.toList.getLast?, Text.isBlank c = false

theorem trimmed_of_list {items : List Sexp} (list : e.toSexp = .list items) : e.Trimmed := by
  rintro h w rfl
  cases list

theorem trim_text (wild : e.Wild) (shown : ∀ w ∈ e.wildcardLeaves, Sexp.Shown w.name)
    (trimmed : e.Trimmed) : Text.trim e.text.toList = e.text.toList := by
  have list (items : List Sexp) (same : e.toSexp = .list items) :
      Text.trim e.text.toList = e.text.toList := by
    rw [text, Sexp.inline, same]
    exact Sexp.trim_layout_list _ _ items
  cases e with
  | leaf h x =>
    cases x with
    | wildcard w =>
      have shown := shown w (by simp [wildcardLeaves])
      rw [text, toSexp, Leaf.toSexp, Sexp.inline, Sexp.layout, shown.bareText_eq]
      exact Text.strip_eq_self (fun c hc => (Sexp.isEdge_iff.1 (shown.first c hc).1).1)
        (trimmed h w rfl)
    | literal | future => exact wild.elim
  | unary h op x => cases op <;> exact list _ rfl
  | binary h op l r => exact list _ rfl

theorem read_text (wild : e.Wild) (shown : ∀ w ∈ e.wildcardLeaves, Sexp.Shown w.name)
    (whole : ∀ w ∈ e.wildcardLeaves, w.Whole) (trimmed : e.Trimmed) {s : Session}
    (known : ∀ w ∈ e.wildcardLeaves, s.names.Knows w) :
    ∃ e', (s.run (Pattern.read e.text).run).1 = .ok e' ∧ e'.erase = e.erase := by
  have solid := forall_atoms_toSexp (fun _ plain => plain.solid) fun w hw =>
    Sexp.Solid.mk (shown w hw) (whole w hw)
  obtain ⟨e', s', ran, same, -⟩ := run_ofSexp_toSexp wild known
  refine ⟨e', ?_, same⟩
  rw [text, Sexp.inline, Pattern.read_layout solid (trim_text wild shown trimmed), ran]

theorem whole_of_read_name {w : Wildcard} (shown : Sexp.Shown w.name)
    {rest : List Sexp.Token} (found : Sexp.tokens .gap (Text.trim w.name.toList) =
      .atom w.name :: rest) (nonempty : Text.trim w.name.toList ≠ []) :
    w.Whole ∧ ∀ c ∈ w.name.toList.getLast?, Text.isBlank c = false := by
  obtain ⟨within, last⟩ := Text.trim_prefix fun c hc =>
    (Sexp.isEdge_iff.1 (shown.first c hc).1).1
  have ends : ∀ c ∈ ([] : List Char).head?, Sexp.endsAtom c = true := by simp
  obtain ⟨short, more, head, whole⟩ := shown.tokens_head within nonempty ends
  rw [List.append_nil, found] at head
  obtain ⟨same, inside⟩ := whole (Sexp.Token.atom.inj (List.cons.inj head).1).symm
  exact ⟨inside, last same⟩

theorem atom_mem_flat {w : Wildcard} (h : w ∈ e.wildcardLeaves) :
    .atom w.name ∈ e.toSexp.flat := by
  induction e with
  | leaf i x =>
    cases x with
    | wildcard v =>
      obtain rfl := List.mem_singleton.1 h
      exact List.mem_singleton_self _
    | literal | future => simp [wildcardLeaves] at h
  | unary i op x ih => cases op <;> simp [toSexp, Sexp.flat, Sexp.flatItems, ih h]
  | binary i op l r ihl ihr =>
    obtain h | h := List.mem_append.1 h
    · simp [toSexp, Sexp.flat, Sexp.flatItems, ihl h]
    · simp [toSexp, Sexp.flat, Sexp.flatItems, ihr h]

theorem whole_of_read_list {items : List Sexp} (list : e.toSexp = .list items)
    (shown : ∀ w ∈ e.wildcardLeaves, Sexp.Shown w.name) {x : Sexp} (spells : Pattern.Spells x e')
    (found : Sexp.read (Text.trim e.text.toList) = .ok x) (same : e'.erase = e.erase) :
    ∀ w ∈ e.wildcardLeaves, w.Whole := by
  by_contra taken
  obtain ⟨w, hw, broken⟩ : ∃ w ∈ e.wildcardLeaves, Sexp.Broken w.name := by
    simpa [Wildcard.Whole, Sexp.Broken] using taken
  have cut := Sexp.cut_layout (Nat.pow 2 64 - 1) 0 e.toSexp
    (forall_atoms_toSexp (fun _ plain => plain.solid.toShown) shown) ⟨_, atom_mem_flat hw, broken⟩ []
    (by simp)
  have trimmed : Text.trim e.text.toList = e.text.toList := by
    rw [text, Sexp.inline, list]
    exact Sexp.trim_layout_list _ _ items
  obtain ⟨rest, tokens⟩ := Sexp.flat_of_assemble found
  rw [trimmed] at tokens
  have printed : e'.toSexp = e.toSexp := by rw [← toSexp_erase e', same, toSexp_erase]
  have uncut := spells.not_cut rest
  rw [printed, ← tokens] at uncut
  rw [List.append_nil] at cut
  exact uncut cut

theorem whole_of_read_text (wild : e.Wild) (shown : ∀ w ∈ e.wildcardLeaves, Sexp.Shown w.name)
    {s s' : Session} (ran : s.run (Pattern.read e.text).run = (.ok e', s'))
    (same : e'.erase = e.erase) : (∀ w ∈ e.wildcardLeaves, w.Whole) ∧ e.Trimmed := by
  obtain ⟨x, nonempty, found, spells, -⟩ := Pattern.spells_of_read ran
  cases e with
  | leaf h y =>
    cases y with
    | wildcard w =>
      have shown := shown w (by simp [wildcardLeaves])
      have name : (leaf h (.wildcard w)).text = w.name := shown.bareText_eq
      rw [name] at found nonempty
      obtain ⟨h', rfl⟩ : ∃ h', e' = .leaf h' (.wildcard w) := by
        cases e' with
        | leaf h' y => exact ⟨h', by simpa [erase] using same⟩
        | unary | binary => simp [erase] at same
      cases spells with
      | wildcard =>
        obtain ⟨rest, tokens⟩ := Sexp.flat_of_assemble found
        obtain ⟨whole, last⟩ := whole_of_read_name shown tokens nonempty
        refine ⟨by simpa [wildcardLeaves] using whole, ?_⟩
        rintro _ _ ⟨⟩
        exact last
    | literal | future => exact wild.elim
  | unary h op y =>
    cases op <;>
      exact ⟨whole_of_read_list rfl shown spells found same, trimmed_of_list rfl⟩
  | binary h op l r =>
    exact ⟨whole_of_read_list rfl shown spells found same, trimmed_of_list rfl⟩

/-- A pattern that was read and printed is read back just if no name in it has a blank, a line break
or a bracket, and it is no bare name that ends in white space. Names that end in a quotation mark are
left out of account, since they lose it. -/
theorem reread_iff {text : String} {s s' later : Session}
    (ran : s.run (Pattern.read text).run = (.ok e, s'))
    (le : s'.names.entries <+: later.names.entries)
    (unquoted : ∀ w ∈ e.wildcardLeaves, ∀ c ∈ w.name.toList.getLast?, c ≠ '"') :
    (∃ e', (later.run (Pattern.read e.text).run).1 = .ok e' ∧ e'.erase = e.erase) ↔
      (∀ w ∈ e.wildcardLeaves, w.Whole) ∧ e.Trimmed := by
  obtain ⟨x, -, -, spells, known⟩ := Pattern.spells_of_read ran
  have known' (w : Wildcard) (hw : w ∈ e.wildcardLeaves) := (known w hw).mono le
  have shown (w : Wildcard) (hw : w ∈ e.wildcardLeaves) :=
    w.shown (known w hw).isName (unquoted w hw)
  refine ⟨fun ⟨e', ok, same⟩ => ?_, fun ⟨whole, trimmed⟩ => ?_⟩
  · exact whole_of_read_text spells.wild shown (Prod.ext ok rfl) same
  · exact read_text spells.wild shown whole trimmed known'

theorem percentName_reread : ∃ e s',
    ({} : Session).run (Pattern.read "(t \"?a%b\")").run = (.ok e, s') ∧ e.text = "(t ?a%b)" ∧
    ∃ e', (s'.run (Pattern.read e.text).run).1 = .ok e' ∧ e'.erase = e.erase := by
  let e : Expr := .unary 1 .transpose (.leaf 0 (.wildcard ⟨0, "?a%b"⟩))
  have ran : ({} : Session).run (Pattern.read "(t \"?a%b\")").run =
      (.ok e, { next := 2, names := ⟨["?a%b"]⟩ }) := rfl
  have names (P : Wildcard → Prop) (h : P ⟨0, "?a%b"⟩) : ∀ w ∈ e.wildcardLeaves, P w := by
    simpa [e, wildcardLeaves] using h
  have legible : Wildcard.Legible ⟨0, "?a%b"⟩ := Wildcard.legible_of_isWord (by decide)
  have unquoted := names (fun w => ∀ c ∈ w.name.toList.getLast?, c ≠ '"') legible.last_ne_quote
  exact ⟨e, _, ran, rfl,
    (reread_iff ran List.prefix_rfl unquoted).2 ⟨names _ legible.inside, trimmed_of_list rfl⟩⟩

theorem blankName_not_reread : ∃ e s',
    ({} : Session).run (Pattern.read "\"?a b\"").run = (.ok e, s') ∧ e.text = "?a b" ∧
    ¬ ∃ e', (s'.run (Pattern.read e.text).run).1 = .ok e' ∧ e'.erase = e.erase := by
  refine ⟨.leaf 0 (.wildcard ⟨0, "?a b"⟩), { next := 1, names := ⟨["?a b"]⟩ }, rfl, rfl, ?_⟩
  rintro ⟨e', read, same⟩
  obtain rfl : .leaf 1 (.wildcard ⟨1, "?a"⟩) = e' := Except.ok.inj read
  simp [erase] at same

end Expr

end LazyMatrix
