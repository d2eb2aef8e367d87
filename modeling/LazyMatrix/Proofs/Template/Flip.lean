import LazyMatrix.Proofs.Pattern.Inverse
import LazyMatrix.Proofs.Template.Check

/-! Templates and their reverses. What the target of a template becomes when it is filled in matches
the target, with the bindings that the source had; so if the target has all the wildcards of the
source, the reverse gives back what the template was applied to, in new nodes for the operators of
the source and with the source's constants where these are scales. -/

namespace LazyMatrix

namespace Expr

variable {σ τ : Bindings} {p y : Expr}

theorem filled_congr (h : ∀ w ∈ p.wildcardLeaves, σ.find? w = τ.find? w) :
    Filled σ p y ↔ Filled τ p y := by
  induction p generalizing y with
  | leaf i x =>
    cases x with
    | wildcard w => rw [Filled, Filled, h w (by simp [wildcardLeaves])]
    | literal | future => rfl
  | unary i op p ih => simp only [Filled, ih h]
  | binary i op p q ihp ihq =>
    simp only [Filled, ihp fun w hw => h w (List.mem_append_left _ hw),
      ihq fun w hw => h w (List.mem_append_right _ hw)]

theorem filled_of_construct {s : Session} (made : (s.run (construct σ p).run).1 = .ok y) :
    Filled σ p y := by
  cases unbound : p.wildcardLeaves.find? fun w => (σ.find? w).isNone with
  | some w => simp [construct_fails unbound s] at made
  | none =>
    have bound (w : Wildcard) (hw : w ∈ p.wildcardLeaves) : σ.find? w ≠ none := by
      simpa using List.find?_eq_none.1 unbound w hw
    obtain ⟨z, made', filled⟩ := construct_filled bound s
    obtain rfl : z = y := Except.ok.inj (made'.symm.trans made)
    exact filled

theorem Filled.matched (h : Filled σ p y) : (y.matchPattern p {}).error = none ∧
    ∀ w ∈ p.wildcardLeaves, (y.matchPattern p {}).bindings.find? w = σ.find? w := by
  obtain ⟨matches_iff, -, -⟩ := matchPattern_mostGeneral y p {}
  have matched := matches_iff.2 ⟨σ, σ.within_empty, h.instance⟩
  refine ⟨matched, fun w hw => ?_⟩
  obtain ⟨x, hx⟩ := Option.ne_none_iff_exists'.1 ((matchPattern_instance matched).2.find?_ne_none w hw)
  have kept := matchPattern_bound (P := fun w x => σ.find? w = some x) h.find?_eq_candidate w x hx
  rw [hx, kept]

end Expr

namespace Template

variable {t u : Template} {e y : Expr} {s : Session}

theorem apply_of_matched (closed : t.Closed) (matched : (e.matchPattern t.source {}).error = none)
    (s : Session) : ∃ y, (s.run (t.apply e).run).1 = .ok y ∧
      t.target.Filled (e.matchPattern t.source {}).bindings y := by
  have bound := (Expr.matchPattern_instance matched).2.find?_ne_none
  have ok : (s.run (t.matchWith e).run).1 = .ok (e.matchPattern t.source {}).bindings := by
    obtain ⟨s', -, ran⟩ := run_matchWith s t e
    rw [ran, matched]
  obtain ⟨s', ran⟩ := run_apply ok
  obtain ⟨y, made, filled⟩ := Expr.construct_filled (fun w hw => bound w (closed w hw)) s'
  exact ⟨y, by rw [ran, made]; rfl, filled⟩

theorem matched_of_apply (ok : (s.run (t.apply e).run).1 = .ok y) :
    (e.matchPattern t.source {}).error = none ∧
      t.target.Filled (e.matchPattern t.source {}).bindings y := by
  cases matching : (s.run (t.matchWith e).run).1 with
  | error m => simp [apply_of_declined matching] at ok
  | ok σ =>
    obtain ⟨matched, rfl⟩ := matched_of_ok matching
    obtain ⟨s', ran⟩ := run_apply matching
    rw [ran, mapError_eq_ok] at ok
    exact ⟨matched, Expr.filled_of_construct ok⟩

/-- Whatever `t` makes of an expression, `u` makes the expression of it again, but for the handles of
the operators that are opposite those of the source and for the constants of scales among them. -/
def Undoes (u t : Template) : Prop :=
  ∀ (s s' : Session) (e y : Expr), (s.run (t.apply e).run).1 = .ok y →
    ∃ z, (s'.run (u.apply y).run).1 = .ok z ∧ Expr.Rebuilt t.source e z

theorem undoes_of_reversed (source : u.source = t.target) (target : u.target = t.source)
    (closed : u.Closed) : u.Undoes t := by
  intro s s' e y ok
  obtain ⟨matched, filled⟩ := matched_of_apply ok
  obtain ⟨matched', agree⟩ := filled.matched
  rw [← source] at matched' agree
  obtain ⟨z, made, filled'⟩ := apply_of_matched closed matched' s'
  refine ⟨z, made, (Expr.matchPattern_instance matched).2.rebuilt ?_⟩
  have filled'' := (Expr.filled_congr fun w hw => agree w (closed w hw)).1 filled'
  rwa [target] at filled''

theorem orBroken_eq_ok (h : t.orBroken = .ok u) : u = t ∧ t.check = .ok () := by
  rw [orBroken] at h
  split at h
  · next sound => exact ⟨(Except.ok.inj h).symm, sound⟩
  · cases h

theorem twoWay_eq_ok {name : String} {p q : Expr} (h : twoWay name p q = .ok (t, u)) :
    t = ⟨name, p, q⟩ ∧ u = t.flip ∧ t.check = .ok () ∧ u.check = .ok () := by
  obtain ⟨t', there, h⟩ := bind_eq_ok.1 h
  obtain ⟨u', back, h⟩ := bind_eq_ok.1 h
  obtain ⟨rfl, rfl⟩ : t' = t ∧ u' = u := by simpa using h
  obtain ⟨rfl, sound⟩ := orBroken_eq_ok there
  obtain ⟨rfl, sound'⟩ := orBroken_eq_ok back
  exact ⟨rfl, rfl, sound, sound'⟩

/-- The reverse of a template, if it is in order, undoes it. Of a rule and its reverse that were made
together, each undoes the other. -/
theorem flip_undoes :
    (∀ t : Template, t.flip.check = .ok () → t.flip.Undoes t) ∧
    ∀ (name : String) (p q : Expr) (t u : Template), twoWay name p q = .ok (t, u) →
      u = t.flip ∧ u.Undoes t ∧ t.Undoes u := by
  refine ⟨fun t sound => undoes_of_reversed rfl rfl (closed_of_check sound),
    fun name p q t u made => ?_⟩
  obtain ⟨-, rfl, sound, sound'⟩ := twoWay_eq_ok made
  exact ⟨rfl, undoes_of_reversed rfl rfl (closed_of_check sound'),
    undoes_of_reversed rfl rfl (closed_of_check sound)⟩

def halvedTwice : Template :=
  ⟨"halved-twice", .unary 10 (.scale 2) Expr.symmetrized, .leaf 6 (.wildcard ⟨0, "?a"⟩)⟩

theorem halvedTwice_flip_undoes : halvedTwice.flip.check = .ok () ∧
    (({} : Session).run (halvedTwice.apply (.unary 9 (.scale 5) (Expr.sumWithTranspose 5 5))).run).1 =
      .ok (.leaf 5 (.literal ⟨⟨1, 1⟩, 1, #[2]⟩)) ∧
    ∃ z, (({ next := 20 } : Session).run
        (halvedTwice.flip.apply (.leaf 5 (.literal ⟨⟨1, 1⟩, 1, #[2]⟩))).run).1 = .ok z ∧
      Expr.Rebuilt halvedTwice.source (.unary 9 (.scale 5) (Expr.sumWithTranspose 5 5)) z := by
  have sound : halvedTwice.flip.check = .ok () := check_eq_ok_iff.2 rfl
  exact ⟨sound, rfl, flip_undoes.1 halvedTwice sound {} { next := 20 } _ _ rfl⟩

end Template

end LazyMatrix
