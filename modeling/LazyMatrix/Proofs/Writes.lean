import LazyMatrix.Proofs.Expr.Arising
import LazyMatrix.Proofs.Task.Activity
import Mathlib.Logic.Function.Basic

/-! Literals over matrices that lie in memory. Those that hold the same future read one matrix, the
result in its cell, and the others have one each. A literal that is written to has a matrix of its
own by then, which no other literal and no future reads; so each of them reads what it began with and
what was written to it alone. -/

namespace LazyMatrix

open Function (update)

inductive Place where
  | own (a : Nat)
  | shared (shape : Shape) (cell : Nat)

/-- Literals and the matrices in memory. The addresses from `next` on are not in use. -/
structure Desk (n : Nat) where
  matrix : Nat → Dense
  next : Nat
  place : Fin n → Place

structure Write (n : Nat) where
  literal : Fin n
  row : Nat
  col : Nat
  value : Float

def Write.Inside {n : Nat} (w : Write n) (s : Shape) : Prop := w.row < s.rows ∧ w.col < s.cols

instance {n : Nat} (w : Write n) (s : Shape) : Decidable (w.Inside s) :=
  inferInstanceAs (Decidable (_ ∧ _))

/-- The last value that was written to an element of a literal. -/
def latest {n : Nat} (i : Fin n) (r c : Nat) : List (Write n) → Option Float
  | [] => none
  | w :: rest =>
      (latest i r c rest).or (if w.literal = i ∧ w.row = r ∧ w.col = c then some w.value else none)

namespace Desk

variable {n : Nat}

/-- Literals that hold one future, whose cell is at address 0 and has `d` in it, and others that are
clones of `d`. -/
def copies (shape : Shape) (d : Dense) (pending : Fin n → Bool) : Desk n where
  matrix _ := d
  next := n + 1
  place i := if pending i then .shared shape 0 else .own (i + 1)

def literal (m : Desk n) (i : Fin n) : Literal :=
  match m.place i with
  | .own a => .ready (m.matrix a)
  | .shared shape cell => .pending ⟨⟨shape, .ok (m.matrix cell)⟩, some cell⟩

def cells (m : Desk n) : List Made := [⟨none, .ok (m.matrix 0)⟩]

def move (m : Desk n) (i : Fin n) (d : Dense) : Desk n :=
  ⟨update m.matrix m.next d, m.next + 1, update m.place i (.own m.next)⟩

def detach (m : Desk n) (i : Fin n) : Desk n × Nat :=
  match m.place i with
  | .own a => (m, a)
  | .shared _ cell => (m.move i (m.matrix cell), m.next)

def set (m : Desk n) (w : Write n) : Desk n × Except Fault Unit :=
  let (m, a) := m.detach w.literal
  match (m.matrix a).set w.row w.col w.value with
  | .ok d => ({ m with matrix := update m.matrix a d }, .ok ())
  | .error fault => (m, .error fault)

def run : Desk n → List (Write n) → Desk n × List (Except Fault Unit)
  | m, [] => (m, [])
  | m, w :: rest =>
      let (m, outcome) := m.set w
      let (m, outcomes) := m.run rest
      (m, outcome :: outcomes)

/-- Matrices of literals are in use by one literal each, and are not those of the future. -/
structure Apart (m : Desk n) : Prop where
  pos : 0 < m.next
  own : ∀ {i a}, m.place i = .own a → 0 < a ∧ a < m.next
  own_inj : ∀ {i j a}, m.place i = .own a → m.place j = .own a → i = j
  shared : ∀ {i shape cell}, m.place i = .shared shape cell → cell = 0

variable {m : Desk n} {i : Fin n}

theorem apart_copies (shape : Shape) (d : Dense) (pending : Fin n → Bool) :
    (copies shape d pending).Apart := by
  have own {i : Fin n} {a : Nat} (h : (copies shape d pending).place i = .own a) : a = i + 1 := by
    simp only [copies] at h
    split at h <;> simp_all
  refine ⟨Nat.succ_pos n, fun h => ?_, fun h h' => ?_, fun {i s cell} h => ?_⟩
  · have := own h
    simp only [copies]
    omega
  · have := own h
    have := own h'
    omega
  · simp only [copies] at h
    split at h <;> simp_all

theorem literal_own {a : Nat} (h : m.place i = .own a) : m.literal i = .ready (m.matrix a) := by
  rw [literal, h]

theorem literal_congr {m' : Desk n} (place : m'.place i = m.place i)
    (own : ∀ a, m.place i = .own a → m'.matrix a = m.matrix a)
    (shared : ∀ s a, m.place i = .shared s a → m'.matrix a = m.matrix a) :
    m'.literal i = m.literal i := by
  rw [literal, literal, place]
  cases h : m.place i with
  | own a => simp only [own a h]
  | shared s a => simp only [shared s a h]

theorem place_move_own {d : Dense} {j : Fin n} {a : Nat} (h : (m.move i d).place j = .own a) :
    (j = i ∧ a = m.next) ∨ (j ≠ i ∧ m.place j = .own a) := by
  by_cases same : j = i
  · subst same
    exact .inl ⟨rfl, by simpa [move, eq_comm] using h⟩
  · exact .inr ⟨same, by simpa [move, same] using h⟩

theorem place_move_shared {d : Dense} {j : Fin n} {s : Shape} {cell : Nat}
    (h : (m.move i d).place j = .shared s cell) : m.place j = .shared s cell := by
  by_cases same : j = i
  · subst same
    simp [move] at h
  · simpa [move, same] using h

theorem Apart.move (h : m.Apart) (i : Fin n) (d : Dense) : (m.move i d).Apart where
  pos := Nat.succ_pos _
  own at_j := by
    obtain ⟨-, rfl⟩ | ⟨-, at_j⟩ := place_move_own at_j
    · exact ⟨h.pos, Nat.lt_succ_self _⟩
    · exact ⟨(h.own at_j).1, Nat.lt_succ_of_lt (h.own at_j).2⟩
  own_inj at_j at_k := by
    obtain ⟨rfl, own⟩ | ⟨-, old⟩ := place_move_own at_j
    · obtain ⟨rfl, -⟩ | ⟨-, old'⟩ := place_move_own at_k
      · rfl
      · exact absurd (h.own old').2 (by omega)
    · obtain ⟨rfl, own'⟩ | ⟨-, old'⟩ := place_move_own at_k
      · exact absurd (h.own old).2 (by omega)
      · exact h.own_inj old old'
  shared at_j := h.shared (place_move_shared at_j)

theorem Apart.detach (h : m.Apart) (i : Fin n) :
    ∃ m' a, m.detach i = (m', a) ∧ m'.Apart ∧ m'.place i = .own a ∧
      (m.literal i).dense = .ok (m'.matrix a) ∧ m'.matrix 0 = m.matrix 0 ∧
      ∀ j ≠ i, m'.literal j = m.literal j := by
  cases at_i : m.place i with
  | own a =>
    refine ⟨m, a, by rw [Desk.detach, at_i], h, at_i, ?_, rfl, fun _ _ => rfl⟩
    rw [literal_own at_i]
    rfl
  | shared s cell =>
    have used {a : Nat} (lt : a < m.next) :
        (m.move i (m.matrix cell)).matrix a = m.matrix a :=
      Function.update_of_ne (Nat.ne_of_lt lt) ..
    refine ⟨m.move i (m.matrix cell), m.next, by rw [Desk.detach, at_i], h.move i _, ?_, ?_,
      used h.pos, fun j other => ?_⟩
    · exact Function.update_self ..
    · simp [literal, at_i, Literal.dense, Promise.wait, Desk.move]
    · refine literal_congr (Function.update_of_ne other ..) (fun a at_j => used (h.own at_j).2) ?_
      intro s a at_j
      obtain rfl := h.shared at_j
      exact used h.pos

/-- A literal is written to as if it were the only one. The others and the future stay as they are. -/
theorem Apart.set (h : m.Apart) (w : Write n) :
    (m.set w).1.Apart ∧ (m.set w).1.matrix 0 = m.matrix 0 ∧
      (m.set w).1.literal w.literal = ((m.literal w.literal).set w.row w.col w.value).1 ∧
      (m.set w).2 = ((m.literal w.literal).set w.row w.col w.value).2 ∧
      ∀ j ≠ w.literal, (m.set w).1.literal j = m.literal j := by
  obtain ⟨m', a, detached, apart, at_i, dense, cell, others⟩ := h.detach w.literal
  rw [Desk.set, detached, Literal.set, dense]
  cases written : (m'.matrix a).set w.row w.col w.value with
  | error fault =>
    simp only [written]
    exact ⟨apart, cell, literal_own at_i, trivial, others⟩
  | ok d =>
    simp only [written]
    have elsewhere {b : Nat} (other : b ≠ a) : update m'.matrix a d b = m'.matrix b :=
      Function.update_of_ne other ..
    refine ⟨⟨apart.pos, apart.own, apart.own_inj, apart.shared⟩, ?_, ?_, trivial, fun j other => ?_⟩
    · rw [← cell]
      exact elsewhere (Nat.ne_of_lt (apart.own at_i).1)
    · have own := literal_own (m := { m' with matrix := update m'.matrix a d }) at_i
      rw [own]
      simp
    · rw [← others j other]
      refine literal_congr rfl (fun b at_j => elsewhere ?_) fun s b at_j => elsewhere ?_
      · rintro rfl
        exact other (apart.own_inj at_j at_i)
      · obtain rfl := apart.shared at_j
        exact Nat.ne_of_lt (apart.own at_i).1

end Desk

/-- Every way to read the literal gives the values of `f`, and reading an element outside of the shape
is a fault. -/
structure Literal.Reads (l : Literal) (s : Shape) (f : Nat → Nat → Float) : Prop where
  shape_eq : l.shape = s
  dense_holds : ∃ d, l.dense = .ok d ∧ d.Holds s f
  entry_eq : ∀ r c, l.entry r c =
    if r < s.rows ∧ c < s.cols then .ok (f r c) else .error (.element r c s)
  toArray_eq : l.toArray = .ok (s.tabulate f)
  intoArray_eq : l.intoArray = .ok (s.tabulate f)

namespace Literal

variable {l : Literal} {s : Shape} {f g : Nat → Nat → Float} {d : Dense}

theorem reads_of_holds (shape : l.shape = s) (dense : l.dense = .ok d) (held : d.Holds s f) :
    l.Reads s f where
  shape_eq := shape
  dense_holds := ⟨d, dense, held⟩
  entry_eq r c := by
    rw [entry, dense, ok_bind]
    split
    · next inside => exact held.entry_eq inside.1 inside.2
    · next outside =>
      rw [← held.shape_eq] at outside ⊢
      exact Dense.entry_outside outside
  toArray_eq := by
    rw [toArray, dense, ok_bind, held.toArray_eq]
  intoArray_eq := by
    cases l with
    | ready d' =>
      obtain rfl : d' = d := Except.ok.inj dense
      exact held.intoArray_eq
    | pending p =>
      have waited : p.wait = .ok d := dense
      rw [intoArray, Promise.toArray, waited, ok_bind, held.toArray_eq]

theorem Reads.congr (h : l.Reads s f) (same : ∀ r < s.rows, ∀ c < s.cols, f r c = g r c) :
    l.Reads s g := by
  obtain ⟨d, dense, held⟩ := h.dense_holds
  refine reads_of_holds h.shape_eq dense ⟨held.wellFormed, held.shape_eq, fun r hr c hc => ?_⟩
  rw [held.element_eq r hr c hc, same r hr c hc]

theorem Reads.set (h : l.Reads s f) (r c : Nat) (x : Float) :
    (l.set r c x).2 =
      (if r < s.rows ∧ c < s.cols then .ok () else .error (.element r c s)) ∧
    (l.set r c x).1.Reads s (fun i j => if i = r ∧ j = c then x else f i j) := by
  obtain ⟨d, dense, held⟩ := h.dense_holds
  obtain ⟨wf, rfl, element⟩ := held
  rw [Literal.set, dense]
  by_cases inside : r < d.shape.rows ∧ c < d.shape.cols
  · obtain ⟨d', done, layout, changed⟩ := wf.set_eq inside.1 inside.2 x
    simp only [done, if_pos inside]
    refine ⟨trivial, reads_of_holds layout.shape_eq rfl
      ⟨layout.wellFormed wf, layout.shape_eq, fun i hi j hj => ?_⟩⟩
    rw [changed i j hj, element i hi j hj]
  · have refused : d.set r c x = .error (.element r c d.shape) := by
      rw [Dense.set, Dense.offset, if_neg inside]
      rfl
    simp only [refused, if_neg inside]
    refine ⟨trivial, reads_of_holds rfl rfl ⟨wf, rfl, fun i hi j hj => ?_⟩⟩
    rw [if_neg, element i hi j hj]
    rintro ⟨rfl, rfl⟩
    exact inside ⟨hi, hj⟩

theorem Reads.set_outside (h : l.Reads s f) {r c : Nat} (outside : ¬ (r < s.rows ∧ c < s.cols))
    (x : Float) : (l.set r c x).1.Reads s f := by
  refine (h.set r c x).2.congr fun i hi j hj => if_neg ?_
  rintro ⟨rfl, rfl⟩
  exact outside ⟨hi, hj⟩

end Literal

namespace Desk

variable {n : Nat} {m : Desk n} {s : Shape} {f : Fin n → Nat → Nat → Float}

theorem Apart.reads_set (h : m.Apart) (reads : ∀ i, (m.literal i).Reads s (f i)) (w : Write n) :
    (m.set w).2 = (if w.Inside s then .ok () else .error (.element w.row w.col s)) ∧
    ∀ i, ((m.set w).1.literal i).Reads s fun r c =>
      (latest i r c [w]).getD (f i r c) := by
  obtain ⟨-, -, own, outcome, others⟩ := h.set w
  obtain ⟨outcome', read⟩ := (reads w.literal).set w.row w.col w.value
  rw [← own] at read
  refine ⟨outcome.trans outcome', fun i => ?_⟩
  by_cases same : i = w.literal
  · subst same
    refine read.congr fun r _ c _ => ?_
    by_cases here : r = w.row ∧ c = w.col
    · simp [latest, here]
    · rw [if_neg here, latest, if_neg (by rintro ⟨-, rfl, rfl⟩; exact here ⟨rfl, rfl⟩)]
      rfl
  · rw [others i same]
    simpa [latest, Ne.symm same] using reads i

theorem latest_cons (i : Fin n) (r c : Nat) (w : Write n) (ws : List (Write n)) (x : Float) :
    (latest i r c (w :: ws)).getD x = (latest i r c ws).getD ((latest i r c [w]).getD x) := by
  simp only [latest, Option.none_or]
  cases latest i r c ws <;> rfl

theorem Apart.run (h : m.Apart) (reads : ∀ i, (m.literal i).Reads s (f i)) (ws : List (Write n)) :
    (m.run ws).1.Apart ∧ (m.run ws).1.matrix 0 = m.matrix 0 ∧
    (m.run ws).2 =
      ws.map (fun w => if w.Inside s then .ok () else .error (.element w.row w.col s)) ∧
    ∀ i, ((m.run ws).1.literal i).Reads s fun r c => (latest i r c ws).getD (f i r c) := by
  induction ws generalizing m f with
  | nil => exact ⟨h, rfl, rfl, reads⟩
  | cons w ws ih =>
    obtain ⟨outcome, read⟩ := h.reads_set reads w
    obtain ⟨apart, cell, -⟩ := h.set w
    obtain ⟨apart', cell', outcomes, read'⟩ := ih apart read
    refine ⟨apart', cell'.trans cell, ?_, fun i => (read' i).congr fun r _ c _ => ?_⟩
    · rw [List.map_cons, ← outcome, ← outcomes]
      rfl
    · exact (latest_cons i r c w ws _).symm

theorem resolve_cells {m : Desk n} {d : Dense} (cell : m.matrix 0 = d) {e : Expr}
    (holds : ∀ g : Future, .future g ∈ e.leaves → g.cell = 0 → g.outcome = .ok d) :
    e.resolve m.cells = e := by
  induction e with
  | leaf h x =>
    cases x with
    | literal | wildcard => rfl
    | future g =>
      obtain ⟨⟨shape, outcome⟩, a⟩ := g
      rw [Expr.resolve]
      cases a with
      | zero =>
        obtain rfl : outcome = .ok d := holds _ (List.mem_singleton_self _) rfl
        simp [cells, cell]
      | succ a => simp [cells]
  | unary h op x ih => rw [Expr.resolve, ih holds]
  | binary h op l r ihl ihr =>
    rw [Expr.resolve, ihl fun g hg => holds g (List.mem_append_left _ hg),
      ihr fun g hg => holds g (List.mem_append_right _ hg)]

/-- Literals that share a future that has ended in `d`, and clones of `d`, written to in any order.
Each literal reads `d` with its own writes over it, where the last write to an element counts, and
its shape stays. The cell of the future keeps `d`, so expressions that hold the future stay as they
are. A write is refused just if it is outside of the shape, and then nothing reads otherwise than
before. -/
theorem writes_private {p : Promise} {d : Dense} (arises : p.Arises Dense.WellFormed)
    (ended : p.outcome = .ok d) (pending : Fin n → Bool) (ws : List (Write n)) :
    (∀ i, (copies p.shape d pending).literal i =
      if pending i then .pending ⟨p, some 0⟩ else .ready d) ∧
    ∃ m outcomes, (copies p.shape d pending).run ws = (m, outcomes) ∧
      outcomes = ws.map (fun w => if w.Inside d.shape then .ok ()
        else .error (.element w.row w.col d.shape)) ∧
      (∀ i, (m.literal i).Reads d.shape fun r c => (latest i r c ws).getD (d.element r c)) ∧
      m.matrix 0 = d ∧
      (∀ e : Expr, (∀ g : Future, .future g ∈ e.leaves → g.cell = 0 → g.toPromise = p) →
        e.resolve m.cells = e) ∧
      ∀ w : Write n,
        (m.set w).1.literal w.literal = ((m.literal w.literal).set w.row w.col w.value).1 ∧
        (m.set w).2 = ((m.literal w.literal).set w.row w.col w.value).2 ∧
        (∀ j ≠ w.literal, (m.set w).1.literal j = m.literal j) ∧
        (¬ w.Inside d.shape → (m.set w).2 = .error (.element w.row w.col d.shape) ∧
          ∀ i f, (m.literal i).Reads d.shape f → ((m.set w).1.literal i).Reads d.shape f) := by
  obtain ⟨wf, shape⟩ := arises.kept (fun _ => id) d ended
  have start (i : Fin n) : (copies p.shape d pending).literal i =
      if pending i then .pending ⟨p, some 0⟩ else .ready d := by
    cases h : pending i <;> simp [literal, copies, h, ← ended]
  have reads (i : Fin n) : ((copies p.shape d pending).literal i).Reads d.shape d.element := by
    rw [start]
    split
    · exact Literal.reads_of_holds shape.symm (by simp [Literal.dense, Promise.wait, ended]) wf.holds
    · exact Literal.reads_of_holds rfl rfl wf.holds
  obtain ⟨apart, cell, outcomes, read⟩ := (apart_copies p.shape d pending).run reads ws
  refine ⟨start, _, _, rfl, outcomes, read, cell, fun e holds => ?_, fun w => ?_⟩
  · exact resolve_cells cell fun g hg at_cell => (congrArg _ (holds g hg at_cell)).trans ended
  · obtain ⟨-, -, own, same, others⟩ := apart.set w
    obtain ⟨outcome, -⟩ := apart.reads_set read w
    refine ⟨own, same, others, fun outside => ⟨by rw [outcome, if_neg outside], ?_⟩⟩
    intro i f before
    by_cases here : i = w.literal
    · subst here
      rw [own]
      exact before.set_outside outside _
    · rwa [others i here]

theorem paddedSquare_writes_private :
    ∃ m : Desk 3, (copies ⟨2, 2⟩ Dense.paddedSquare (· != 2)).run
        [⟨0, 1, 0, 7⟩, ⟨2, 0, 2, 5⟩, ⟨0, 1, 0, 8⟩] =
        (m, [.ok (), .error (.element 0 2 ⟨2, 2⟩), .ok ()]) ∧
      (m.literal 0).entry 1 0 = .ok 8 ∧ (m.literal 1).entry 1 0 = .ok 3 ∧
      (m.literal 2).toArray = .ok #[1, 2, 3, 4] := by
  have held := Dense.paddedSquare_obtained.wellFormed
  obtain ⟨-, m, _, ran, rfl, reads, -⟩ :=
    writes_private (n := 3) (.ready {} held) rfl (· != 2)
      [⟨0, 1, 0, 7⟩, ⟨2, 0, 2, 5⟩, ⟨0, 1, 0, 8⟩]
  refine ⟨m, ran, ?_, ?_, ?_⟩
  · exact (reads 0).entry_eq 1 0
  · exact (reads 1).entry_eq 1 0
  · exact (reads 2).toArray_eq

end Desk

end LazyMatrix
