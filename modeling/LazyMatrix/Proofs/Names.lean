import LazyMatrix.Proofs.Building
import Mathlib.Data.List.Induction
import Mathlib.Data.List.Nodup
import Mathlib.Data.List.Perm.Subperm

/-! The names of wildcards. The table pairs positions and names one to one and grows at its end
only, so a name once read is read as the same wildcard ever after. A fresh name is looked for among
more candidates than there are names, and so it is found. -/

namespace LazyMatrix

namespace Wildcard

variable {name : String}

theorem toList_of_isName (h : isName name = true) : ∃ c cs, name.toList = '?' :: c :: cs := by
  rw [isName] at h
  split at h
  · exact ⟨_, _, ‹_›⟩
  · cases h

theorem two_le_utf8ByteSize (h : isName name = true) : 2 ≤ name.utf8ByteSize := by
  obtain ⟨c, cs, chars⟩ := toList_of_isName h
  have written : name = String.ofList ('?' :: c :: cs) := by rw [← chars, String.ofList_toList]
  have first := Char.utf8Size_pos '?'
  have second := Char.utf8Size_pos c
  rw [written, String.ofList_cons, String.ofList_cons, String.utf8ByteSize_append,
    String.utf8ByteSize_append, String.utf8ByteSize_singleton, String.utf8ByteSize_singleton]
  omega

end Wildcard

namespace Names

variable {t t' : Names} {w : Wildcard} {name : String}

theorem intern_prefix (t : Names) (name : String) : t.entries <+: (t.intern name).2.entries := by
  rw [intern]
  split
  · exact List.prefix_rfl
  · exact List.prefix_append _ _

theorem mem_intern (t : Names) (name : String) : name ∈ (t.intern name).2.entries := by
  rw [intern]
  split
  · next i found => exact List.isSome_idxOf?.1 (by simp [found])
  · simp

theorem intern_name (t : Names) (name : String) : (t.intern name).1.name = name := by
  rw [intern]
  split <;> rfl

theorem intern_of_prefix (le : t.entries <+: t'.entries) (mem : name ∈ t.entries) :
    (t'.intern name).1 = (t.intern name).1 := by
  obtain ⟨more, same⟩ := le
  obtain ⟨i, found⟩ := Option.isSome_iff_exists.1 (List.isSome_idxOf?.2 mem)
  have found' : t'.entries.idxOf? name = some i := by
    rw [List.idxOf?] at found ⊢
    simp [← same, List.findIdx?_append, found]
  simp [intern, found, found']

theorem intern_of_mem (mem : name ∈ t.entries) : (t.intern name).2 = t := by
  obtain ⟨i, found⟩ := Option.isSome_iff_exists.1 (List.isSome_idxOf?.2 mem)
  rw [intern, found]

theorem intern_of_not_mem (new : name ∉ t.entries) :
    t.intern name = (⟨t.size, name⟩, ⟨t.entries ++ [name]⟩) := by
  have missing : t.entries.idxOf? name = none := List.idxOf?_eq_none_iff.2 new
  rw [intern, missing]

theorem intern_intern (t : Names) (name : String) :
    ((t.intern name).2.intern name).1 = (t.intern name).1 := by
  cases found : t.entries.idxOf? name with
  | some i => simp [intern, found]
  | none =>
    have last : (t.entries ++ [name]).idxOf? name = some t.entries.length := by
      rw [List.idxOf?] at found ⊢
      simp [List.findIdx?_append, found]
    simp [intern, found, last, size]

theorem getElem?_intern_iff {i : Nat} {n : String} :
    (t.intern name).2.entries[i]? = some n ↔
      t.entries[i]? = some n ∨ (t.intern name).1 = ⟨i, n⟩ := by
  by_cases mem : name ∈ t.entries
  · obtain ⟨j, found⟩ := Option.isSome_iff_exists.1 (List.isSome_idxOf?.2 mem)
    obtain ⟨hj, here, -⟩ := List.idxOf?_eq_some_iff.1 found
    have answer : t.intern name = (⟨j, name⟩, t) := by rw [intern, found]
    have there : t.entries[j]? = some name := by simp [hj, here]
    rw [answer]
    refine ⟨.inl, ?_⟩
    rintro (old | same)
    · exact old
    · cases same
      exact there
  · have positions : (t.entries ++ [name])[i]? = some n ↔
        t.entries[i]? = some n ∨ t.entries.length = i ∧ name = n := by
      rcases Nat.lt_trichotomy i t.entries.length with before | last | behind
      · simp [List.getElem?_append_left before]
        omega
      · subst last
        simp
      · rw [List.getElem?_eq_none (by simp; omega), List.getElem?_eq_none (by omega)]
        simp
        omega
    rw [intern_of_not_mem mem, positions, size, Wildcard.mk.injEq]

theorem getElem?_intern (t : Names) (name : String) :
    (t.intern name).2.entries[(t.intern name).1.index]? = some name := by
  apply getElem?_intern_iff.2
  right
  have same := t.intern_name name
  generalize (t.intern name).1 = w at same
  subst same
  rfl

/-- No name stands in the table twice, and each is fit to be a name. -/
structure Proper (t : Names) : Prop where
  nodup : t.entries.Nodup
  isName : ∀ name ∈ t.entries, Wildcard.isName name = true

theorem proper_empty : empty.Proper := ⟨List.nodup_nil, by simp [empty]⟩

theorem Proper.intern (proper : t.Proper) (isName : Wildcard.isName name = true) :
    (t.intern name).2.Proper := by
  by_cases mem : name ∈ t.entries
  · rwa [intern_of_mem mem]
  · rw [intern_of_not_mem mem]
    constructor
    · simpa using List.Nodup.concat mem proper.nodup
    · simpa [or_imp, forall_and] using ⟨proper.isName, isName⟩

theorem Proper.index_eq_iff (proper : t.Proper) {i j : Nat} {m n : String}
    (hi : t.entries[i]? = some m) (hj : t.entries[j]? = some n) : i = j ↔ m = n := by
  have inside : i < t.entries.length := (List.getElem?_eq_some_iff.1 hi).1
  constructor
  · intro same
    rw [same, hj] at hi
    exact (Option.some.inj hi).symm
  · intro same
    apply (List.getElem?_inj inside proper.nodup).1
    rw [hi, hj, same]

theorem Proper.intern_eq (proper : t.Proper) (there : t.entries[w.index]? = some w.name) :
    t.intern w.name = (w, t) := by
  have unchanged : (t.intern w.name).2 = t := intern_of_mem (List.mem_of_getElem? there)
  have found := t.getElem?_intern w.name
  rw [unchanged] at found
  have index : (t.intern w.name).1.index = w.index := (proper.index_eq_iff found there).2 rfl
  have answer : (t.intern w.name).1 = w := by
    rw [Wildcard.mk.injEq]
    exact ⟨index, t.intern_name w.name⟩
  exact Prod.ext answer unchanged

theorem toList_anonymous (n : Nat) :
    (anonymous n).toList = '?' :: '_' :: Nat.toDigits 10 n := by
  simp [anonymous, toString]

theorem isName_anonymous (n : Nat) : Wildcard.isName (anonymous n) = true := by
  rw [Wildcard.isName, toList_anonymous]
  rfl

theorem anonymous_injective : Function.Injective anonymous := by
  intro m n same
  have lists := congrArg String.toList same
  simp only [toList_anonymous, List.cons.injEq, true_and] at lists
  have values := congrArg (fun digits => Nat.ofDigitChars 10 digits 0) lists
  simpa only [Nat.ofDigitChars_ten_toDigits] using values

theorem unused_eq (t : Names) (tries n : Nat) :
    ∃ k ≤ tries, t.unused tries n = anonymous (n + k) ∧
      (∀ j < k, anonymous (n + j) ∈ t.entries) ∧
      (anonymous (n + k) ∈ t.entries → k = tries) := by
  induction tries generalizing n with
  | zero => exact ⟨0, le_rfl, rfl, by simp, fun _ => rfl⟩
  | succ tries ih =>
    unfold unused
    by_cases taken : anonymous n ∈ t.entries
    · obtain ⟨k, bound, found, before, last⟩ := ih (n + 1)
      have shift (j : Nat) : n + 1 + j = n + (j + 1) := by omega
      simp only [shift] at found before last
      refine ⟨k + 1, by omega, by simpa [taken] using found, ?_, fun mem => by simp [last mem]⟩
      intro j hj
      cases j with
      | zero => simpa using taken
      | succ j => exact before j (by omega)
    · exact ⟨0, by omega, by simp [taken], by simp, fun mem => absurd mem taken⟩

theorem le_size_of_taken {k n : Nat} (taken : ∀ j < k, anonymous (n + j) ∈ t.entries) :
    k ≤ t.size := by
  have distinct : ((List.range k).map fun j => anonymous (n + j)).Nodup := by
    refine List.Nodup.map ?_ List.nodup_range
    intro i j same
    have := anonymous_injective same
    omega
  have inside : ((List.range k).map fun j => anonymous (n + j)) ⊆ t.entries := by
    intro name mem
    obtain ⟨j, hj, rfl⟩ := List.mem_map.1 mem
    exact taken j (List.mem_range.1 hj)
  simpa [size] using (distinct.subperm inside).length_le

theorem fresh_eq (t : Names) :
    ∃ k ≤ t.size, (∀ j < k, anonymous (t.size + j) ∈ t.entries) ∧
      anonymous (t.size + k) ∉ t.entries ∧
      t.fresh = (⟨t.size, anonymous (t.size + k)⟩, ⟨t.entries ++ [anonymous (t.size + k)]⟩) := by
  obtain ⟨k, bound, found, before, last⟩ := t.unused_eq t.size t.size
  have free : anonymous (t.size + k) ∉ t.entries := by
    intro mem
    have all : ∀ j < k + 1, anonymous (t.size + j) ∈ t.entries := by
      intro j hj
      rcases Nat.lt_succ_iff_lt_or_eq.1 hj with lt | rfl
      · exact before j lt
      · exact mem
    have := le_size_of_taken all
    have := last mem
    omega
  exact ⟨k, bound, before, free, by rw [fresh, found, intern_of_not_mem free]⟩

theorem isName_unused (t : Names) (tries n : Nat) : Wildcard.isName (t.unused tries n) = true := by
  obtain ⟨k, -, found, -⟩ := t.unused_eq tries n
  rw [found]
  exact isName_anonymous _

end Names

inductive Request where
  | fresh
  | read (text : String)

def Request.ask : Request → Attempt MalformedName Wildcard
  | .fresh => liftM Wildcard.fresh
  | .read text => Wildcard.read text

namespace Session

variable {s : Session} {rs : List Request} {w : Wildcard}

def after (s : Session) (rs : List Request) : Session :=
  rs.foldl (fun s r => (s.run r.ask.run).2) s

def reply (s : Session) (rs : List Request) (r : Request) : Except MalformedName Wildcard :=
  ((s.after rs).run r.ask.run).1

def HandsOut (s : Session) (rs : List Request) (w : Wildcard) : Prop :=
  ∃ before r, before ++ [r] <+: rs ∧ s.reply before r = .ok w

theorem after_append (s : Session) (rs more : List Request) :
    s.after (rs ++ more) = (s.after rs).after more := List.foldl_append

theorem run_read {text : String} (isName : Wildcard.isName text = true) (s : Session) :
    s.run (Request.read text).ask.run =
      (.ok (s.names.intern text).1, { s with names := (s.names.intern text).2 }) := by
  rw [Request.ask, Wildcard.read, if_pos isName]
  rfl

theorem run_read_malformed {text : String} (malformed : Wildcard.isName text = false)
    (s : Session) : s.run (Request.read text).ask.run = (.error ⟨text⟩, s) := by
  rw [Request.ask, Wildcard.read, malformed]
  rfl

theorem run_ask (s : Session) (r : Request) :
    (∃ e, s.run r.ask.run = (.error e, s)) ∨
      ∃ name, Wildcard.isName name = true ∧ s.run r.ask.run =
        (.ok (s.names.intern name).1, { s with names := (s.names.intern name).2 }) := by
  cases r with
  | fresh => exact .inr ⟨_, s.names.isName_unused _ _, rfl⟩
  | read text =>
    cases isName : Wildcard.isName text with
    | true => exact .inr ⟨text, isName, run_read isName s⟩
    | false => exact .inl ⟨_, run_read_malformed isName s⟩

theorem getElem?_ask_iff (s : Session) (r : Request) :
    (s.run r.ask.run).2.names.entries[w.index]? = some w.name ↔
      s.names.entries[w.index]? = some w.name ∨ (s.run r.ask.run).1 = .ok w := by
  rcases s.run_ask r with ⟨e, refused⟩ | ⟨name, -, looked⟩
  · simp [refused]
  · rw [looked, Names.getElem?_intern_iff, Except.ok.injEq]

theorem proper_ask (proper : s.names.Proper) (r : Request) :
    (s.run r.ask.run).2.names.Proper := by
  rcases s.run_ask r with ⟨e, refused⟩ | ⟨name, isName, looked⟩
  · rwa [refused]
  · rw [looked]
    exact proper.intern isName

theorem proper_after (proper : s.names.Proper) (rs : List Request) :
    (s.after rs).names.Proper := by
  induction rs generalizing s with
  | nil => exact proper
  | cons r rs ih => exact ih (proper_ask proper r)

theorem handsOut_iff (empty : s.names = .empty) (rs : List Request) :
    s.HandsOut rs w ↔ (s.after rs).names.entries[w.index]? = some w.name := by
  induction rs using List.reverseRecOn with
  | nil =>
    have nothing : (s.after []).names.entries = [] := congrArg Names.entries empty
    simp [HandsOut, nothing]
  | append_singleton rs r ih =>
    have last : (s.after (rs ++ [r])).names = ((s.after rs).run r.ask.run).2.names := by
      rw [after_append]
      rfl
    rw [last, getElem?_ask_iff, ← ih]
    constructor
    · rintro ⟨before, r', le, answer⟩
      rcases List.prefix_concat_iff.1 le with all | le
      · obtain ⟨rfl, same⟩ := List.append_inj' all rfl
        obtain rfl := List.singleton_inj.1 same
        exact .inr answer
      · exact .inl ⟨before, r', le, answer⟩
    · rintro (⟨before, r', le, answer⟩ | answer)
      · exact ⟨before, r', le.trans (List.prefix_append _ _), answer⟩
      · exact ⟨rs, r, List.prefix_rfl, answer⟩

theorem HandsOut.mono (h : s.HandsOut rs w) (more : List Request) : s.HandsOut (rs ++ more) w := by
  obtain ⟨before, r, le, answer⟩ := h
  exact ⟨before, r, le.trans (List.prefix_append _ _), answer⟩

theorem name_of_reply {text : String} (answer : s.reply rs (.read text) = .ok w) :
    w.name = text := by
  cases isName : Wildcard.isName text with
  | true =>
    rw [reply, run_read isName] at answer
    rw [← Except.ok.inj answer, Names.intern_name]
  | false =>
    rw [reply, run_read_malformed isName] at answer
    cases answer

/-- The table is a bijection that grows. Its names differ from each other and its positions are those
of the wildcards handed out, each under its name from then on. A fresh wildcard is always found and
is none of those before it, two names that are read give the same wildcard just if they are the same
name, and the name of a wildcard is read as that wildcard, for which nothing is added. -/
theorem names_bijection (empty : s.names = .empty) (rs : List Request) :
    (s.after rs).names.entries.Nodup ∧
    (∀ name ∈ (s.after rs).names.entries,
      name.toList.head? = some '?' ∧ 2 ≤ name.utf8ByteSize) ∧
    (∀ w, s.HandsOut rs w ↔ (s.after rs).names.entries[w.index]? = some w.name) ∧
    (∀ w, s.HandsOut rs w → ∀ more,
      (s.after (rs ++ more)).names.entries[w.index]? = some w.name) ∧
    (∃ n k, n = (s.after rs).names.size ∧ k ≤ n ∧
      (∀ j < k, Names.anonymous (n + j) ∈ (s.after rs).names.entries) ∧
      Names.anonymous (n + k) ∉ (s.after rs).names.entries ∧
      s.reply rs .fresh = .ok ⟨n, Names.anonymous (n + k)⟩ ∧
      ∀ w, s.HandsOut rs w → w.index ≠ n) ∧
    (∀ before x v, before ++ [.read x] <+: rs → s.reply before (.read x) = .ok v →
      ∀ y w, s.reply rs (.read y) = .ok w → (v.index = w.index ↔ x = y)) ∧
    (∀ w, s.HandsOut rs w → ∀ more,
      s.reply (rs ++ more) (.read w.name) = .ok w ∧
        (s.after (rs ++ more ++ [.read w.name])).names = (s.after (rs ++ more)).names) := by
  have start : s.names.Proper := by
    rw [empty]
    exact Names.proper_empty
  have proper := proper_after start rs
  have later (w : Wildcard) (h : s.HandsOut rs w) (more : List Request) :
      (s.after (rs ++ more)).names.entries[w.index]? = some w.name :=
    (handsOut_iff empty _).1 (h.mono more)
  refine ⟨proper.nodup, ?_, fun w => handsOut_iff empty rs, later, ?_, ?_, ?_⟩
  · intro name mem
    have isName := proper.isName name mem
    obtain ⟨c, cs, chars⟩ := Wildcard.toList_of_isName isName
    exact ⟨by simp [chars], Wildcard.two_le_utf8ByteSize isName⟩
  · obtain ⟨k, bound, taken, free, found⟩ := (s.after rs).names.fresh_eq
    refine ⟨_, k, rfl, bound, taken, free, ?_, ?_⟩
    · exact congrArg (fun answer => Except.ok answer.1) found
    · intro w h
      have there := (handsOut_iff empty rs).1 h
      exact (List.getElem?_eq_some_iff.1 there).1.ne
  · intro before x v le first y w second
    have old := later v ⟨before, _, le, first⟩ [.read y]
    have new := (handsOut_iff empty _).1 ⟨rs, _, List.prefix_rfl, second⟩
    rw [← name_of_reply first, ← name_of_reply second]
    exact (proper_after start (rs ++ [.read y])).index_eq_iff old new
  · intro w h more
    have there := later w h more
    have proper := proper_after start (rs ++ more)
    have isName := proper.isName w.name (List.mem_of_getElem? there)
    have read := run_read isName (s.after (rs ++ more))
    rw [proper.intern_eq there] at read
    have next := congrArg (fun result => result.2.names) read
    refine ⟨congrArg Prod.fst read, ?_⟩
    rwa [after_append s (rs ++ more)]

theorem taken_names_bijection : ({} : Session).names = .empty ∧
    ({} : Session).reply [.read "?_1"] .fresh = .ok ⟨1, "?_2"⟩ ∧
    ({} : Session).HandsOut [.read "?_1", .fresh] ⟨1, "?_2"⟩ ∧
    ({} : Session).reply [.read "?_1", .fresh, .read "?"] (.read "?_2") = .ok ⟨1, "?_2"⟩ := by
  have second : ({} : Session).HandsOut [.read "?_1", .fresh] ⟨1, "?_2"⟩ :=
    ⟨[.read "?_1"], .fresh, List.prefix_rfl, rfl⟩
  obtain ⟨-, -, -, -, -, -, read⟩ := names_bijection (s := {}) rfl [.read "?_1", .fresh]
  exact ⟨rfl, rfl, second, (read _ second [.read "?"]).1⟩

end Session

end LazyMatrix
