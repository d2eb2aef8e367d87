import LazyMatrix.Proofs.Template

/-! What checking a template foretells. A match binds the wildcards of the source, in order,
whatever it is a match with; so whether the target can be filled in, and which wildcard it lacks first if it
cannot, is known beforehand. Templates that pass never break a compiler in which each of them runs
throughout. -/

namespace LazyMatrix

namespace Bindings

theorem find?_isNone (b : Bindings) (w : Wildcard) :
    (b.find? w).isNone = !(b.pairs.map Prod.fst).contains w := by
  rw [Bool.eq_iff_iff, find?, Option.isNone_map, Option.isNone_iff_eq_none, List.find?_eq_none]
  suffices (∀ v x, (v, x) ∈ b.pairs → ¬v = w) ↔ ∀ x, (w, x) ∉ b.pairs by simpa
  exact ⟨fun h x mem => h w x mem rfl, fun h v x mem same => h x (same ▸ mem)⟩

end Bindings

namespace Expr

variable {σ : Bindings} {p : Expr} {w : Wildcard}

theorem construct_fails (h : p.wildcardLeaves.find? (fun v => (σ.find? v).isNone) = some w)
    (s : Session) : (s.run (construct σ p).run).1 = .error ⟨w⟩ := by
  induction p generalizing s with
  | leaf i x =>
    cases x with
    | wildcard v =>
      obtain rfl : w = v := by simpa [wildcardLeaves] using List.mem_of_find?_eq_some h
      have free : σ.find? w = none := by simpa using List.find?_some h
      rw [construct, constructLeaf, free]
      rfl
    | literal | future => simp [wildcardLeaves] at h
  | unary i op p ih => exact Session.run_bind_error _ (ih h s)
  | binary i op p q ihp ihq =>
    rw [wildcardLeaves, List.find?_append] at h
    cases first : p.wildcardLeaves.find? fun v => (σ.find? v).isNone with
    | some v =>
      obtain rfl : v = w := by simpa [first] using h
      exact Session.run_bind_error _ (ihp first s)
    | none =>
      have bound (v : Wildcard) (hv : v ∈ p.wildcardLeaves) : σ.find? v ≠ none := by
        simpa using List.find?_eq_none.1 first v hv
      obtain ⟨l, made⟩ := construct_succeeds bound s
      have second : q.wildcardLeaves.find? (fun v => (σ.find? v).isNone) = some w := by
        simpa [first] using h
      rw [construct, Session.run_bind_ok _ (Prod.ext made rfl)]
      exact Session.run_bind_error _ (ihq second _)

end Expr

namespace Template

variable {t : Template} {e : Expr} {s : Session}

def lacking? (t : Template) : Option Wildcard :=
  t.target.wildcardLeaves.find? fun w => !t.source.wildcardLeaves.contains w

theorem check_eq (t : Template) :
    t.check = t.lacking?.elim (.ok ()) fun w => .error ⟨w⟩ := by
  have found : (Cursor.start t.target).find? (fun w => !t.source.wildcards.contains w) =
      t.lacking? := by
    rw [Cursor.find?_eq, t.source.wildcards_eq, lacking?]
    simp [Cursor.start]
  rw [check, found]
  cases t.lacking? <;> rfl

theorem check_eq_ok_iff : t.check = .ok () ↔ t.lacking? = none := by
  rw [check_eq]
  cases t.lacking? <;> simp

theorem check_eq_error_iff {u : Unbound} : t.check = .error u ↔ t.lacking? = some u.wildcard := by
  rw [check_eq]
  cases t.lacking? with
  | none => simp
  | some w =>
    cases u
    simp

theorem closed_of_check (h : t.check = .ok ()) : t.Closed := by
  intro w hw
  simpa using List.find?_eq_none.1 (check_eq_ok_iff.1 h) w hw

theorem keys_of_matched (matched : (e.matchPattern t.source {}).error = none) :
    (e.matchPattern t.source {}).bindings.pairs.map Prod.fst = t.vars := by
  obtain ⟨-, -, new, pairs, keys⟩ := (Expr.matchPattern_mostGeneral e t.source {}).2.1 matched
  rw [pairs, vars, t.source.wildcards_eq, List.map_append, keys]
  simp

theorem lacking?_of_matched (matched : (e.matchPattern t.source {}).error = none) :
    t.target.wildcardLeaves.find?
      (fun w => ((e.matchPattern t.source {}).bindings.find? w).isNone) = t.lacking? := by
  simp only [Bindings.find?_isNone, keys_of_matched matched, lacking?]
  congr 1
  funext w
  simp [vars, t.source.wildcards_eq]

theorem apply_of_declined {m : MatchError} (declined : (s.run (t.matchWith e).run).1 = .error m) :
    (s.run (t.apply e).run).1 = .error (.mismatch m) := by
  rw [apply, ExceptT.run_bind, Session.run_bind, Session.run_attempt_lift, declined]
  rfl

theorem matched_of_ok {σ : Bindings} (ok : (s.run (t.matchWith e).run).1 = .ok σ) :
    (e.matchPattern t.source {}).error = none ∧ σ = (e.matchPattern t.source {}).bindings := by
  obtain ⟨s', -, ran⟩ := run_matchWith s t e
  rw [ran] at ok
  cases h : (e.matchPattern t.source {}).error with
  | none => exact ⟨rfl, by simpa [h] using ok.symm⟩
  | some m => simp [h] at ok

theorem run_apply {σ : Bindings} (ok : (s.run (t.matchWith e).run).1 = .ok σ) :
    ∃ s' : Session, (s.run (t.apply e).run).1 =
      (s'.run (t.target.construct σ).run).1.mapError .broken := by
  refine ⟨(s.run (t.matchWith e).run).2, ?_⟩
  rw [apply, ExceptT.run_bind, Session.run_bind, Session.run_attempt_lift, ok]
  generalize (s.run (t.matchWith e).run).2 = s'
  change (s'.run (ExceptT.run (liftM (t.target.construct σ).run >>= _))).1 = _
  rw [ExceptT.run_bind, Session.run_bind, Session.run_attempt_lift]
  cases (s'.run (t.target.construct σ).run).1 <;> rfl

/-- What checking a template says about applying it. An expression that the source does not match is
refused for that very reason; one that it matches becomes the target, unless the check finds a
wildcard in the target to be unbound, which is then the one that applying it fails for. So a compiler
of checked templates, each throughout, has a result for every expression. -/
theorem check_foretells :
    (∀ (t : Template) (e : Expr) (s : Session),
      (∀ m, (s.run (t.matchWith e).run).1 = .error m →
        (s.run (t.apply e).run).1 = .error (.mismatch m)) ∧
      ∀ σ, (s.run (t.matchWith e).run).1 = .ok σ →
        σ.pairs.map Prod.fst = t.vars ∧
        ((∃ y, (s.run (t.apply e).run).1 = .ok y) ↔ t.check = .ok ()) ∧
        ∀ u, t.check = .error u → (s.run (t.apply e).run).1 = .error (.broken u)) ∧
    ∀ ts : List Template, (∀ t ∈ ts, t.check = .ok ()) → ∀ (e : Expr) (s : Session),
      ∃ y, (s.run ((⟨ts.map everywhere, false⟩ : Compiler).compile e).run).1 = .ok y := by
  refine ⟨fun t e s => ⟨fun m => apply_of_declined, fun σ ok => ?_⟩, fun ts checked e s => ?_⟩
  · obtain ⟨s', ran⟩ := run_apply ok
    obtain ⟨matched, rfl⟩ := matched_of_ok ok
    have lacking := lacking?_of_matched matched
    rw [ran]
    refine ⟨keys_of_matched matched, ?_, fun u broken => ?_⟩
    · cases h : t.lacking? with
      | some w =>
        rw [h] at lacking
        rw [Expr.construct_fails lacking, check_eq_ok_iff, h]
        simp
      | none =>
        rw [h] at lacking
        have made := Expr.construct_succeeds (p := t.target)
          fun w hw => by simpa using List.find?_eq_none.1 lacking w hw
        simpa [check_eq_ok_iff, h] using made s'
    · rw [check_eq_error_iff.1 broken] at lacking
      rw [Expr.construct_fails lacking]
      rfl
  · refine Compiler.compile_succeeds (c := ⟨ts.map everywhere, false⟩) rfl ?_ e s
    rw [List.forall_mem_map]
    exact fun t ht => Pass.everywhere_succeeds (unbroken (closed_of_check (checked t ht)))

def halved : Template := ⟨"halved", Expr.symmetrized, .leaf 6 (.wildcard ⟨0, "?a"⟩)⟩

def strayed : Template := ⟨"strayed", Expr.symmetrized, .leaf 6 (.wildcard ⟨1, "?b"⟩)⟩

theorem symmetrized_check_foretells :
    (∃ m, (({} : Session).run (strayed.apply (Expr.sumWithTranspose 5 6)).run).1 =
      .error (.mismatch m)) ∧
    strayed.check = .error ⟨⟨1, "?b"⟩⟩ ∧
    (({} : Session).run (strayed.apply (Expr.sumWithTranspose 5 5)).run).1 =
      .error (.broken ⟨⟨1, "?b"⟩⟩) ∧
    halved.check = .ok () ∧
    ∃ y, (({} : Session).run ((⟨[halved.everywhere], false⟩ : Compiler).compile
      (.leaf 9 (.wildcard ⟨0, "?a"⟩))).run).1 = .ok y := by
  obtain ⟨single, listed⟩ := check_foretells
  have broken : strayed.check = .error ⟨⟨1, "?b"⟩⟩ := check_eq_error_iff.2 rfl
  have sound : halved.check = .ok () := check_eq_ok_iff.2 rfl
  refine ⟨⟨_, (single strayed (Expr.sumWithTranspose 5 6) {}).1 _ rfl⟩, broken, ?_, sound, ?_⟩
  · exact ((single strayed (Expr.sumWithTranspose 5 5) {}).2 _ rfl).2.2 _ broken
  · exact listed [halved] (by simpa using sound) _ _

end Template

end LazyMatrix
