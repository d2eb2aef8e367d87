import LazyMatrix.Pattern.Reader
import LazyMatrix.Proofs.Decimal.Reading
import LazyMatrix.Proofs.Rules.Forms
import LazyMatrix.Proofs.Sexp.Reading

/-! Patterns read back from their text. Whatever is printed is read as the symbolic expression that
was printed, and of those the reader accepts just the ones in which every leaf is a wildcard. -/

namespace LazyMatrix

/-- The wildcard was handed out under its name. -/
structure Names.Knows (t : Names) (w : Wildcard) : Prop where
  isName : Wildcard.isName w.name = true
  mem : w.name ∈ t.entries
  intern_eq : (t.intern w.name).1 = w

namespace Names

variable {t t' : Names} {w : Wildcard} {name : String}

theorem Knows.mono (h : t.Knows w) (le : t.entries <+: t'.entries) : t'.Knows w := by
  have same := intern_of_prefix le h.mem
  exact ⟨h.isName, le.subset h.mem, same.trans h.intern_eq⟩

theorem knows_intern (t : Names) (isName : Wildcard.isName name = true) :
    (t.intern name).2.Knows (t.intern name).1 := by
  refine ⟨?_, ?_, ?_⟩ <;> rw [intern_name]
  · exact isName
  · exact t.mem_intern name
  · exact t.intern_intern name

end Names

namespace Session

theorem knows_of_read {s : Session} {text : String} {w : Wildcard}
    (ok : (s.run (Wildcard.read text).run).1 = .ok w) :
    (s.run (Wildcard.read text).run).2.names.Knows w := by
  rw [Wildcard.read] at ok ⊢
  split at ok
  · next isName =>
    rw [if_pos isName]
    obtain rfl := Except.ok.inj ok
    exact s.names.knows_intern isName
  · cases ok

theorem knows_fresh (s : Session) :
    (s.run Wildcard.fresh).2.names.Knows (s.run Wildcard.fresh).1 :=
  s.names.knows_intern (s.names.isName_unused _ _)

end Session

namespace Sexp

def isWord (c : Char) : Bool := isEdge c && !endsAtom c

theorem plain_of_isWord {s : String} (nonempty : s.toList ≠ [])
    (all : ∀ c ∈ s.toList, isWord c = true) : Plain s := by
  simp only [isWord, Bool.and_eq_true, Bool.not_eq_true'] at all
  exact
    { nonempty := nonempty
      inside := fun c hc => (all c hc).2
      first := fun c hc => (all c (List.mem_of_mem_head? hc)).1
      last := fun c hc => (all c (List.mem_of_mem_getLast? hc)).1 }

theorem isWord_of_isDigit {c : Char} (h : c.isDigit = true) : isWord c = true := by
  have range : 48 ≤ c.toNat ∧ c.toNat ≤ 57 := Char.isDigit_iff_toNat.1 h
  have other (d : Char) (outside : d.toNat < 48 ∨ 57 < d.toNat) : decide (c = d) = false := by
    rw [decide_eq_false_iff_not]
    rintro rfl
    omega
  have blank : Text.isBlank c = false := by
    simp only [Text.isBlank, Text.blankRanges, List.any_cons, List.any_nil, Bool.or_false,
      Bool.or_eq_false_iff, Bool.and_eq_false_iff, decide_eq_false_iff_not]
    omega
  simp [isWord, isEdge, endsAtom, blank, other]

theorem isWord_of_mem_digits {n : Nat} {c : Char} (h : c ∈ Nat.toDigits 10 n) : isWord c = true :=
  isWord_of_isDigit (Nat.isDigit_of_mem_toDigits (by decide) (by decide) h)

theorem isWord_of_mem_shape {s : Shape} {c : Char} (h : c ∈ s.text.toList) : isWord c = true := by
  have chars : s.text.toList = Nat.toDigits 10 s.rows ++ 'x' :: Nat.toDigits 10 s.cols := by
    simp [Shape.text, toString]
  rw [chars, List.mem_append, List.mem_cons] at h
  obtain h | rfl | h := h
  · exact isWord_of_mem_digits h
  · decide
  · exact isWord_of_mem_digits h

theorem plain_shape (s : Shape) : Plain s.text :=
  plain_of_isWord (by simp [Shape.text, toString]) fun _ => isWord_of_mem_shape

theorem plain_bracketed_shape (s : Shape) : Plain ("[" ++ s.text ++ "]") := by
  refine plain_of_isWord (by simp) fun c hc => ?_
  obtain rfl | hc | rfl : c = '[' ∨ c ∈ s.text.toList ∨ c = ']' := by simpa using hc
  · decide
  · exact isWord_of_mem_shape hc
  · decide

end Sexp

namespace Decimal

theorem isWord_of_mem_positionalText {d : Decimal} {c : Char}
    (h : c ∈ positionalText .constant d) : Sexp.isWord c = true := by
  obtain ⟨whole, fraction, shape, -, hw, hf, -⟩ := positionalText_eq d
  rw [shape, pointed] at h
  obtain h | h := List.mem_append.1 h
  · exact Sexp.isWord_of_isDigit (hw c h)
  split at h
  · simp at h
  · obtain rfl | h := List.mem_cons.1 h
    · decide
    · exact Sexp.isWord_of_isDigit (hf c h)

theorem positionalText_ne_nil (style : Style) (d : Decimal) : positionalText style d ≠ [] := by
  rw [positionalText]
  split <;> simp [digitList]

theorem plain_write (x : Float) : Sexp.Plain (write .constant x) := by
  have positional (d : Decimal) : text .constant d = positionalText .constant d := rfl
  refine Sexp.plain_of_isWord ?_ ?_ <;> rw [write, String.toList_ofList, bitsText]
  · split
    · decide
    · split <;> split <;> simp [magnitudeText, positional, positionalText_ne_nil]
  · intro c hc
    have minus : ['-'].all Sexp.isWord = true := by decide
    have nan : "NaN".toList.all Sexp.isWord = true := by decide
    have inf : "inf".toList.all Sexp.isWord = true := by decide
    rw [List.all_eq_true] at minus nan inf
    split at hc
    · exact nan c hc
    · obtain hc | hc := List.mem_append.1 hc <;> split at hc
      · simp at hc
      · exact minus c hc
      · exact inf c hc
      · rw [magnitudeText, positional] at hc
        exact isWord_of_mem_positionalText hc

end Decimal

/-- A name that is read as it is printed, wherever it stands. -/
structure Wildcard.Legible (w : Wildcard) : Prop where
  inside : ∀ c ∈ w.name.toList, Sexp.endsAtom c = false
  last : ∀ c ∈ w.name.toList.getLast?, Sexp.isEdge c = true

theorem Wildcard.legible_of_isWord {w : Wildcard} (h : w.name.toList.all Sexp.isWord = true) :
    w.Legible := by
  have all : ∀ c ∈ w.name.toList, Sexp.isEdge c = true ∧ Sexp.endsAtom c = false := by
    simpa [Sexp.isWord] using h
  exact ⟨fun c hc => (all c hc).2, fun c hc => (all c (List.mem_of_mem_getLast? hc)).1⟩

theorem Wildcard.shown {w : Wildcard} (h : isName w.name = true)
    (unquoted : ∀ c ∈ w.name.toList.getLast?, c ≠ '"') : Sexp.Shown w.name := by
  obtain ⟨c, cs, chars⟩ := toList_of_isName h
  refine ⟨by simp [chars], ?_, unquoted⟩
  rw [chars]
  rintro c ⟨⟩
  decide

theorem Wildcard.Legible.last_ne_quote {w : Wildcard} (legible : w.Legible) :
    ∀ c ∈ w.name.toList.getLast?, c ≠ '"' :=
  fun c hc => (Sexp.isEdge_iff.1 (legible.last c hc)).2

theorem Wildcard.Legible.plain {w : Wildcard} (legible : w.Legible) (h : isName w.name = true) :
    Sexp.Plain w.name := by
  have shown := w.shown h legible.last_ne_quote
  exact ⟨shown.nonempty, legible.inside, fun c hc => (shown.first c hc).1, legible.last⟩

theorem Kind.plain_symbol (k : Kind) : Sexp.Plain k.symbol := by
  cases k with
  | elementwise f =>
    cases f <;> exact Sexp.plain_of_isWord (by decide) (List.all_eq_true.1 (by decide))
  | _ => exact Sexp.plain_of_isWord (by decide) (List.all_eq_true.1 (by decide))

namespace Expr

variable {e : Expr}

theorem toSexp_unary {op : UnaryOp} (other : op.kind ≠ .scale) (h : Nat) (x : Expr) :
    (unary h op x).toSexp = .list [.atom op.kind.symbol, x.toSexp] := by
  cases op with
  | scale c => exact absurd rfl other
  | transpose | async => rfl

theorem forall_atoms_toSexp {P : String → Prop} (plain : ∀ s, Sexp.Plain s → P s)
    (names : ∀ w ∈ e.wildcardLeaves, P w.name) : ∀ s, .atom s ∈ e.toSexp.flat → P s := by
  induction e with
  | leaf h x =>
    intro s hs
    cases x with
    | literal d =>
      obtain rfl : s = "[" ++ d.shape.text ++ "]" := by
        simpa [toSexp, Leaf.toSexp, Sexp.flat] using hs
      exact plain _ (Sexp.plain_bracketed_shape _)
    | future f =>
      obtain rfl | rfl : s = Kind.future.symbol ∨ s = f.shape.text := by
        simpa [toSexp, Leaf.toSexp, Sexp.flat, Sexp.flatItems] using hs
      · exact plain _ (Kind.plain_symbol _)
      · exact plain _ (Sexp.plain_shape _)
    | wildcard w =>
      obtain rfl : s = w.name := by simpa [toSexp, Leaf.toSexp, Sexp.flat] using hs
      exact names w (by simp [wildcardLeaves])
  | unary h op x ih =>
    have below := ih names
    intro s hs
    cases op with
    | scale c =>
      obtain rfl | rfl | hs : s = Kind.scale.symbol ∨ s = Decimal.write .constant c ∨
          .atom s ∈ x.toSexp.flat := by
        simpa [toSexp, Sexp.flat, Sexp.flatItems] using hs
      · exact plain _ (Kind.plain_symbol _)
      · exact plain _ (Decimal.plain_write c)
      · exact below s hs
    | transpose | async =>
      rw [toSexp_unary (by decide)] at hs
      obtain rfl | hs : s = Kind.symbol _ ∨ .atom s ∈ x.toSexp.flat := by
        simpa [Sexp.flat, Sexp.flatItems] using hs
      · exact plain _ (Kind.plain_symbol _)
      · exact below s hs
  | binary h op l r ihl ihr =>
    intro s hs
    obtain rfl | hs | hs : s = op.kind.symbol ∨ .atom s ∈ l.toSexp.flat ∨
        .atom s ∈ r.toSexp.flat := by
      simpa [toSexp, Sexp.flat, Sexp.flatItems] using hs
    · exact plain _ (Kind.plain_symbol _)
    · exact ihl (fun w hw => names w (List.mem_append_left _ hw)) s hs
    · exact ihr (fun w hw => names w (List.mem_append_right _ hw)) s hs

theorem plain_toSexp (names : ∀ w ∈ e.wildcardLeaves, Wildcard.isName w.name = true)
    (legible : ∀ w ∈ e.wildcardLeaves, w.Legible) : ∀ s, .atom s ∈ e.toSexp.flat → Sexp.Plain s :=
  forall_atoms_toSexp (fun _ => id) fun w hw => (legible w hw).plain (names w hw)

end Expr

namespace Pattern

theorem read_layout {x : Sexp} (solid : ∀ s, .atom s ∈ x.flat → Sexp.Solid s) {width level : Nat}
    (trimmed : Text.trim (x.layout width level).toList = (x.layout width level).toList) :
    read (x.layout width level) = ofSexp x := by
  have nonempty := Sexp.layout_ne_nil width level fun s hs => (solid s hs).toShown
  rw [read, trimmed, if_neg (by simpa using nonempty), Sexp.read_layout width level solid]

theorem ofSexp_unary {op : UnaryOp} (other : op.kind ≠ .scale) (x : Sexp) :
    ofSexp (.list [.atom op.kind.symbol, x]) = (do Expr.newUnary op (← ofSexp x)) := by
  rw [ofSexp]
  cases op with
  | scale c => exact absurd rfl other
  | transpose | async => rfl

theorem ofSexp_scale (c x : Sexp) :
    ofSexp (.list [.atom Kind.scale.symbol, c, x]) =
      match constantOf c with
      | .ok c => (do Expr.newUnary (.scale c) (← ofSexp x))
      | .error e => throw e := by
  rw [ofSexp]
  rfl

theorem ofSexp_binary (op : BinaryOp) (x y : Sexp) :
    ofSexp (.list [.atom op.kind.symbol, x, y]) =
      (do
        let l ← ofSexp x
        let r ← ofSexp y
        Expr.newBinary op l r) := by
  have word : Head.ofWord? op.kind.symbol = some (.binary op) := by
    cases op with
    | elementwise f => cases f <;> rfl
    | product => rfl
  rw [ofSexp, word]

theorem run_ofSexp_wildcard {w : Wildcard} {s : Session} (known : s.names.Knows w) :
    s.run (ofSexp (.atom w.name)).run =
      (.ok (.leaf s.next (.wildcard w)), { s with next := s.next + 1 }) := by
  obtain ⟨c, cs, chars⟩ := Wildcard.toList_of_isName known.isName
  have named : s.run (Wildcard.named w.name) = (w, s) :=
    Prod.ext known.intern_eq (congrArg (fun names => { s with names })
      (Names.intern_of_mem known.mem))
  have ran : s.run (Wildcard.read w.name).run = (.ok w, s) := by
    rw [Wildcard.read, if_pos known.isName, Session.run_attempt_lift, named]
  rw [ofSexp, ofWord, if_pos (by simp [chars]), ExceptT.run_bind, Session.run_bind,
    Session.run_attempt_lift, ran]
  rfl

end Pattern

namespace Expr

variable {e : Expr}

theorem run_ofSexp_toSexp (wild : e.Wild) {s : Session}
    (known : ∀ w ∈ e.wildcardLeaves, s.names.Knows w) :
    ∃ e' s', s.run (Pattern.ofSexp e.toSexp).run = (.ok e', s') ∧ e'.erase = e.erase ∧
      s'.names = s.names := by
  induction e generalizing s with
  | leaf h x =>
    cases x with
    | wildcard w =>
      exact ⟨_, _, Pattern.run_ofSexp_wildcard (known w (by simp [wildcardLeaves])), rfl, rfl⟩
    | literal | future => exact wild.elim
  | unary h op x ih =>
    cases op with
    | scale c =>
      obtain ⟨x', s', ran, same, names⟩ := ih wild known
      rw [toSexp, Pattern.ofSexp_scale, Pattern.constantOf, Decimal.read_write]
      refine ⟨_, _, Session.run_bind_ok _ ran, ?_, names⟩
      exact congrArg (unary 0 (.scale c)) same
    | transpose | async =>
      obtain ⟨x', s', ran, same, names⟩ := ih wild known
      rw [toSexp_unary (by decide), Pattern.ofSexp_unary (by decide)]
      refine ⟨_, _, Session.run_bind_ok _ ran, ?_, names⟩
      exact congrArg (unary 0 _) same
  | binary h op l r ihl ihr =>
    obtain ⟨l', s₁, ranl, samel, namesl⟩ := ihl wild.1
      fun w hw => known w (List.mem_append_left _ hw)
    obtain ⟨r', s₂, ranr, samer, namesr⟩ := ihr (s := s₁) wild.2
      fun w hw => namesl ▸ known w (List.mem_append_right _ hw)
    rw [toSexp, Pattern.ofSexp_binary]
    refine ⟨_, _, (Session.run_bind_ok _ ranl).trans (Session.run_bind_ok _ ranr), ?_,
      namesr.trans namesl⟩
    exact congrArg₂ (binary 0 op) samel samer

theorem fails_ofSexp_toSexp (other : ¬ e.Wild) : Fails (Pattern.ofSexp e.toSexp) := by
  induction e with
  | leaf h x =>
    cases x with
    | literal d =>
      rw [toSexp, Leaf.toSexp, Pattern.ofSexp, Pattern.ofWord, if_neg (by simp)]
      exact fails_throw _
    | future f =>
      rw [toSexp, Leaf.toSexp, Pattern.ofSexp]
      exact fails_throw _
    | wildcard w => exact absurd trivial other
  | unary h op x ih =>
    have below := ih other
    cases op with
    | scale c =>
      rw [toSexp, Pattern.ofSexp_scale]
      split
      · exact below.bind _
      · exact fails_throw _
    | transpose | async =>
      rw [toSexp_unary (by decide), Pattern.ofSexp_unary (by decide)]
      exact below.bind _
  | binary h op l r ihl ihr =>
    rw [toSexp, Pattern.ofSexp_binary]
    by_cases wild : l.Wild
    · exact fails_bind fun _ => (ihr fun wild' => other ⟨wild, wild'⟩).bind _
    · exact (ihl wild).bind _

/-- An expression that was printed, in lines of any width, is read back just if it has no leaves but
wildcards, and what is read is the expression itself but for its handles. -/
theorem read_printed (e : Expr) (s : Session) (width : Nat)
    (known : ∀ w ∈ e.wildcardLeaves, s.names.Knows w)
    (legible : ∀ w ∈ e.wildcardLeaves, w.Legible) :
    ∀ text ∈ [e.pretty width, e.text],
      ((∃ e', (s.run (Pattern.read text).run).1 = .ok e') ↔ e.Wild) ∧
      ∀ e', (s.run (Pattern.read text).run).1 = .ok e' → e'.erase = e.erase := by
  have plain := plain_toSexp (fun w hw => (known w hw).isName) legible
  have printed : ∀ text ∈ [e.pretty width, e.text], Pattern.read text = Pattern.ofSexp e.toSexp := by
    simp only [List.mem_cons, List.not_mem_nil, or_false, forall_eq_or_imp, forall_eq]
    have solid := fun s hs => (plain s hs).solid
    exact ⟨Pattern.read_layout solid (Sexp.trim_layout _ _ plain),
      Pattern.read_layout solid (Sexp.trim_layout _ _ plain)⟩
  intro text ht
  rw [printed text ht]
  by_cases wild : e.Wild
  · obtain ⟨e', s', ran, same, -⟩ := run_ofSexp_toSexp wild known
    rw [ran]
    refine ⟨iff_of_true ⟨e', rfl⟩ wild, ?_⟩
    rintro _ ⟨⟩
    exact same
  · obtain ⟨error, ran⟩ := fails_ofSexp_toSexp wild s
    rw [ran]
    exact ⟨iff_of_false (by rintro ⟨_, ⟨⟩⟩) wild, nofun⟩

def scaledSum : Expr :=
  .unary 4 .transpose (.binary 3 (.elementwise .add) (.leaf 0 (.wildcard ⟨0, "?a"⟩))
    (.unary 2 (.scale 2) (.leaf 1 (.wildcard ⟨1, "?b"⟩))))

theorem scaledSum_read_printed :
    (∀ w ∈ scaledSum.wildcardLeaves, (⟨["?a", "?b"]⟩ : Names).Knows w) ∧
    (∀ w ∈ scaledSum.wildcardLeaves, w.Legible) ∧
    ∃ e', (({ names := ⟨["?a", "?b"]⟩ } : Session).run
      (Pattern.read (scaledSum.pretty 9)).run).1 = .ok e' ∧ e'.erase = scaledSum.erase := by
  have known : ∀ w ∈ scaledSum.wildcardLeaves, (⟨["?a", "?b"]⟩ : Names).Knows w := by
    simp only [scaledSum, wildcardLeaves, List.cons_append, List.nil_append, List.mem_cons,
      List.not_mem_nil, or_false, forall_eq_or_imp, forall_eq]
    exact ⟨⟨by decide, by decide, by decide⟩, ⟨by decide, by decide, by decide⟩⟩
  have legible : ∀ w ∈ scaledSum.wildcardLeaves, w.Legible := by
    simp only [scaledSum, wildcardLeaves, List.cons_append, List.nil_append, List.mem_cons,
      List.not_mem_nil, or_false, forall_eq_or_imp, forall_eq]
    exact ⟨Wildcard.legible_of_isWord (by decide), Wildcard.legible_of_isWord (by decide)⟩
  obtain ⟨accepted, same⟩ := read_printed scaledSum { names := ⟨["?a", "?b"]⟩ } 9 known legible
    (scaledSum.pretty 9) (by simp)
  obtain ⟨e', ok⟩ := accepted.2 ⟨trivial, trivial⟩
  exact ⟨known, legible, e', ok, same e' ok⟩

end Expr

end LazyMatrix
