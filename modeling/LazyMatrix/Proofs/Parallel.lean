import LazyMatrix.Proofs.Building
import LazyMatrix.Proofs.Expr.Isomorphism
import LazyMatrix.Proofs.Outcome

/-! Two sessions side by side. What is built in the two may refer to nodes that a pairing relates,
and leaves the pairing with at most more pairs. What they come to is stated under the pairing at the
end. Two attempts keep step if both succeed or both fail, with results that are related. -/

namespace LazyMatrix

variable {α β γ δ ε : Type} {ρ : Expr → Expr → Prop}

/-- Building `x` in one session and `y` in another, in which nodes are paired by `ρ`, comes to
something with `Q`. -/
def Parallel (ρ : Expr → Expr → Prop) (x : Build α) (y : Build β)
    (Q : (Expr → Expr → Prop) → α → β → Prop) : Prop :=
  ∀ s t : Session, Expr.Pairing ρ s.next t.next →
    ∃ ρ', ρ ≤ ρ' ∧ Expr.Pairing ρ' (s.run x).2.next (t.run y).2.next ∧ Q ρ' (s.run x).1 (t.run y).1

/-- Attempting `x` and `y` alike, both come to something, with `Q`, or neither does, with `E`. -/
def Abreast (ρ : Expr → Expr → Prop) (x : Attempt ε α) (y : Attempt ε β) (E : ε → ε → Prop)
    (Q : (Expr → Expr → Prop) → α → β → Prop) : Prop :=
  Parallel ρ x.run y.run fun ρ' => Concord E (Q ρ')

section Parallel

variable {x : Build α} {y : Build β} {f : α → Build γ} {g : β → Build δ}
  {P Q : (Expr → Expr → Prop) → α → β → Prop} {R : (Expr → Expr → Prop) → γ → δ → Prop}

theorem parallel_pure {a : α} {b : β} (h : Q ρ a b) : Parallel ρ (pure a) (pure b) Q :=
  fun _ _ pairing => ⟨ρ, le_rfl, pairing, h⟩

theorem parallel_bind (hx : Parallel ρ x y P)
    (hf : ∀ ρ' a b, ρ ≤ ρ' → P ρ' a b → Parallel ρ' (f a) (g b) R) :
    Parallel ρ (x >>= f) (y >>= g) R := by
  intro s t pairing
  obtain ⟨ρ₁, le₁, pairing, first⟩ := hx s t pairing
  obtain ⟨ρ₂, le₂, pairing, second⟩ := hf ρ₁ _ _ le₁ first _ _ pairing
  exact ⟨ρ₂, le₁.trans le₂, pairing, second⟩

theorem Parallel.of_pairing (h : ∀ next next', Expr.Pairing ρ next next' → Parallel ρ x y Q) :
    Parallel ρ x y Q :=
  fun s t pairing => h s.next t.next pairing s t pairing

theorem parallel_note (e e' : Event) :
    Parallel ρ (Session.note e) (Session.note e') fun _ _ _ => True :=
  fun _ _ pairing => ⟨ρ, le_rfl, pairing, trivial⟩

theorem parallel_noteAll (es es' : List Event) :
    Parallel ρ (Session.noteAll es) (Session.noteAll es') fun _ _ _ => True :=
  fun _ _ pairing => ⟨ρ, le_rfl, pairing, trivial⟩

end Parallel

section Abreast

variable {x : Attempt ε α} {y : Attempt ε β} {f : α → Attempt ε γ} {g : β → Attempt ε δ}
  {E : ε → ε → Prop} {P Q : (Expr → Expr → Prop) → α → β → Prop}
  {R : (Expr → Expr → Prop) → γ → δ → Prop}

theorem abreast_pure {a : α} {b : β} (h : Q ρ a b) :
    Abreast ρ (pure a : Attempt ε α) (pure b) E Q :=
  parallel_pure (.ok h)

theorem abreast_throw {e e' : ε} (h : E e e') :
    Abreast ρ (throw e : Attempt ε α) (throw e' : Attempt ε β) E Q :=
  parallel_pure (.error h)

theorem abreast_lift {b : Build α} {c : Build β} (h : Parallel ρ b c Q) :
    Abreast ρ (liftM b : Attempt ε α) (liftM c) E Q := by
  intro s t pairing
  obtain ⟨ρ', le, pairing, result⟩ := h s t pairing
  exact ⟨ρ', le, pairing, .ok result⟩

theorem abreast_bind (hx : Abreast ρ x y E P)
    (hf : ∀ ρ' a b, ρ ≤ ρ' → P ρ' a b → Abreast ρ' (f a) (g b) E R) :
    Abreast ρ (x >>= f) (y >>= g) E R := by
  rw [Abreast, ExceptT.run_bind, ExceptT.run_bind]
  refine parallel_bind hx fun ρ' a b le concord => ?_
  cases concord with
  | ok h => exact hf ρ' _ _ le h
  | error h => exact parallel_pure (.error h)

theorem abreast_tryCatch {handler handler' : ε → Attempt ε α} {y : Attempt ε α}
    {Q : (Expr → Expr → Prop) → α → α → Prop} (hx : Abreast ρ x y E Q)
    (hf : ∀ ρ' e e', ρ ≤ ρ' → E e e' → Abreast ρ' (handler e) (handler' e') E Q) :
    Abreast ρ (tryCatch x handler) (tryCatch y handler') E Q := by
  rw [Abreast, ExceptT.run_tryCatch, ExceptT.run_tryCatch]
  refine parallel_bind hx fun ρ' a b le concord => ?_
  cases concord with
  | ok h => exact parallel_pure (.ok h)
  | error h => exact hf ρ' _ _ le h

end Abreast

namespace Expr

theorem Pairing.adjoin_new {next next' : Nat} (h : Pairing ρ next next') {x y : Expr}
    (mirrors : Mirrors ρ x y) (handle : x.handle = next) (handle' : y.handle = next') :
    Pairing (Adjoin ρ x y) (next + 1) (next' + 1) := by
  refine (h.mono (Nat.le_succ next) (Nat.le_succ next')).adjoin mirrors ?_ ?_ ?_ ?_
  · exact fun a b hab => handle ▸ (h.left_lt a b hab).ne
  · exact fun a b hab => handle' ▸ (h.right_lt a b hab).ne
  · exact handle ▸ Nat.lt_succ_self _
  · exact handle' ▸ Nat.lt_succ_self _

theorem parallel_newUnary (op : UnaryOp) {x y : Expr} (h : ρ x y) :
    Parallel ρ (newUnary op x) (newUnary op y) fun ρ' => ρ' :=
  fun s t pairing => ⟨Adjoin ρ (.unary s.next op x) (.unary t.next op y), fun _ _ => .inl,
    pairing.adjoin_new (.unary _ _ op h) rfl rfl, .inr ⟨rfl, rfl⟩⟩

theorem parallel_newBinary (op : BinaryOp) {l r l' r' : Expr} (hl : ρ l l') (hr : ρ r r') :
    Parallel ρ (newBinary op l r) (newBinary op l' r') fun ρ' => ρ' :=
  fun s t pairing => ⟨Adjoin ρ (.binary s.next op l r) (.binary t.next op l' r'), fun _ _ => .inl,
    pairing.adjoin_new (.binary _ _ op hl hr) rfl rfl, .inr ⟨rfl, rfl⟩⟩

end Expr

end LazyMatrix
