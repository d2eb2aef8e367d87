import LazyMatrix.Template
import LazyMatrix.Proofs.Pass.Soundness
import LazyMatrix.Proofs.Pattern.Filled

/-! What a template does. Where it applies, the expression is its source filled in and the result is
its target filled in, both with what the match has bound. -/

namespace LazyMatrix.Template

variable {t : Template} {nodes : Set Expr}

def Closed (t : Template) : Prop := ∀ w ∈ t.target.wildcardLeaves, w ∈ t.source.wildcardLeaves

theorem run_matchWith (s : Session) (t : Template) (e : Expr) :
    ∃ s', s'.next = s.next ∧ s.run (t.matchWith e).run =
      (match (e.matchPattern t.source {}).error with
        | none => .ok (e.matchPattern t.source {}).bindings
        | some error => .error error, s') := by
  refine ⟨(s.run (Session.noteAll (e.matchPattern t.source {}).events)).2, rfl, ?_⟩
  rw [matchWith, ExceptT.run_bind, Session.run_bind, Session.run_attempt_lift]
  cases (e.matchPattern t.source {}).error <;> rfl

theorem attempts_matchWith (e : Expr) : Attempts nodes (t.matchWith e) fun _ σ =>
    σ = (e.matchPattern t.source {}).bindings ∧ (e.matchPattern t.source {}).error = none := by
  intro s extant
  obtain ⟨s', next, ran⟩ := run_matchWith s t e
  rw [ran]
  refine ⟨nodes, subset_rfl, next ▸ extant, fun σ ok => ?_⟩
  cases h : (e.matchPattern t.source {}).error with
  | none => exact ⟨by simpa [h] using ok.symm, rfl⟩
  | some error => simp [h] at ok

theorem apply_spec (rooted : t.target.Rooted nodes) {e : Expr} (he : e ∈ nodes) :
    Attempts nodes (t.apply e) fun more y => y ∈ more ∧
      (e.matchPattern t.source {}).error = none ∧
      t.target.Filled (e.matchPattern t.source {}).bindings y := by
  refine Attempts.of_extant fun ⟨next, extant⟩ => ?_
  refine attempts_bind (attempts_lift (attempts_matchWith e)) fun more result le matched => ?_
  cases result with
  | error error =>
    exact attempts_bind (attempts_lift (builds_note _)) fun _ _ _ _ => attempts_throw _
  | ok σ =>
    obtain ⟨rfl, none⟩ := matched σ rfl
    have among := Expr.matchPattern_among (p := t.source) extant.operand_mem he
    refine attempts_bind (attempts_lift (Expr.construct_spec (rooted.mono le)
      fun w x bound => le (among w x bound))) fun most result le' constructed => ?_
    cases result with
    | error error => exact attempts_throw _
    | ok y =>
      obtain ⟨hy, filled⟩ := constructed y rfl
      refine attempts_bind (attempts_lift (builds_note _)) fun last _ le'' _ => ?_
      exact attempts_pure ⟨le'' hy, none, filled⟩

variable {base : Set Expr}

theorem keeps {R : Expr → Expr → Prop} (source : t.source.Rooted base)
    (target : t.target.Rooted base) (unscaled : t.source.Unscaled)
    (law : ∀ σ x y, t.source.Filled σ x → t.target.Filled σ y → R x y) :
    Pass.Keeps base R t.toPass.run := by
  intro nodes x hb hx
  refine Attempts.of_extant fun ⟨next, extant⟩ => ?_
  refine (apply_spec (target.mono hb) hx).mono fun more y le ⟨hy, matched, filled⟩ => ?_
  have among := Expr.matchPattern_among (p := t.source) extant.operand_mem hx
  have found := (Expr.matchPattern_instance matched).2.filled extant among hx (source.mono hb)
    unscaled
  exact ⟨hy, law _ x y found filled⟩

theorem honest (target : t.target.Rooted base) (intact : t.target.Intact) :
    t.toPass.Honest base := by
  intro nodes x hb hx
  refine (apply_spec (target.mono hb) hx).mono fun more y le ⟨hy, _, filled⟩ => ?_
  refine ⟨hy, fun intact' => filled.intact intact ?_⟩
  have closed : ∀ z ∈ {z : Expr | z.Intact}, ∀ operand ∈ z.operands, operand ∈ {z | z.Intact} :=
    fun _ whole => whole.operands
  exact Expr.matchPattern_among closed intact'

theorem unbroken (closed : t.Closed) : Pass.Unbroken t.toPass.run := by
  intro s e u
  obtain ⟨s', -, ran⟩ := run_matchWith s t e
  change (s.run (t.apply e).run).1 ≠ _
  rw [apply, ExceptT.run_bind, Session.run_bind, Session.run_attempt_lift, ran]
  cases h : (e.matchPattern t.source {}).error with
  | some error => exact fun broken => nomatch broken
  | none =>
    have bound := (Expr.matchPattern_instance h).2.find?_ne_none
    have made : Succeeds (t.target.construct (e.matchPattern t.source {}).bindings) :=
      Expr.construct_succeeds fun w hw => bound w (closed w hw)
    obtain ⟨y, hy⟩ := made s'
    change (s'.run (ExceptT.run (liftM (t.target.construct _).run >>= _))).1 ≠ _
    rw [ExceptT.run_bind, Session.run_bind, Session.run_attempt_lift, hy]
    exact fun broken => nomatch broken

end LazyMatrix.Template
