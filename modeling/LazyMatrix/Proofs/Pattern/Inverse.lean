import LazyMatrix.Proofs.Pattern.Filled

/-! Matching and filling in undo each other. What a pattern becomes when it is filled in matches the
pattern, with the bindings it was filled in with; and a pattern filled in with the bindings of a
match is the expression matched, but for the handles of its operators and for the constants of
scales, which are not compared and are those of the pattern. -/

namespace LazyMatrix.Expr

variable {σ : Bindings} {c p y : Expr}

theorem construct_filled (bound : ∀ w ∈ p.wildcardLeaves, σ.find? w ≠ none) (s : Session) :
    ∃ y, (s.run (construct σ p).run).1 = .ok y ∧ Filled σ p y := by
  induction p generalizing s with
  | leaf h x =>
    cases x with
    | wildcard w =>
      obtain ⟨y, found⟩ := Option.ne_none_iff_exists'.1 (bound w (by simp [wildcardLeaves]))
      rw [construct, constructLeaf, found]
      exact ⟨y, rfl, found⟩
    | literal | future => exact ⟨_, rfl, rfl⟩
  | unary h op p ih =>
    obtain ⟨z, made, filled⟩ := ih bound s
    rw [construct, Session.run_bind_ok _ (Prod.ext made rfl)]
    exact ⟨_, rfl, _, z, rfl, filled⟩
  | binary h op p q ihp ihq =>
    obtain ⟨l, madel, filledl⟩ := ihp (fun w hw => bound w (List.mem_append_left _ hw)) s
    obtain ⟨r, mader, filledr⟩ := ihq (fun w hw => bound w (List.mem_append_right _ hw))
      (s.run (construct σ p).run).2
    rw [construct, Session.run_bind_ok _ (Prod.ext madel rfl),
      Session.run_bind_ok _ (Prod.ext mader rfl)]
    exact ⟨_, rfl, _, l, r, rfl, filledl, filledr⟩

theorem Filled.instance (h : Filled σ p y) : Instance σ y p := by
  induction p generalizing y with
  | leaf i x =>
    cases x with
    | wildcard w => exact .wildcard h (by simp [same])
    | literal d =>
      obtain rfl : y = _ := h
      exact .literal (by simp [same])
    | future f =>
      obtain rfl : y = _ := h
      exact .future (by simp [same])
  | unary i op p ih =>
    obtain ⟨j, z, rfl, filled⟩ := h
    exact .unary rfl (ih filled)
  | binary i op p q ihp ihq =>
    obtain ⟨j, l, r, rfl, filledl, filledr⟩ := h
    exact .binary rfl (ihp filledl) (ihq filledr)

theorem Filled.find?_eq_candidate (h : Filled σ p y) :
    ∀ x ∈ positions y p, ∀ w ∈ x.wildcards, σ.find? w = some x.candidate := by
  induction p generalizing y with
  | leaf i x =>
    cases x with
    | wildcard w =>
      have bound : σ.find? w = some y := h
      simpa [positions, Position.wildcards] using bound
    | literal | future => simp [positions, Position.wildcards]
  | unary i op p ih =>
    obtain ⟨j, z, rfl, filled⟩ := h
    refine forall_positions_unary.2 ⟨by simp [Position.wildcards], ?_⟩
    rintro _ _ _ ⟨⟩ -
    exact ih filled
  | binary i op p q ihp ihq =>
    obtain ⟨j, l, r, rfl, filledl, filledr⟩ := h
    refine forall_positions_binary.2 ⟨by simp [Position.wildcards], ?_⟩
    rintro _ _ _ _ ⟨⟩ -
    exact ⟨ihp filledl, ihq filledr⟩

/-- `Rebuilt p c y` says that `y` is `c` with new nodes for the operators that are opposite operators
of the pattern `p`, and with the pattern's constants where these are scales. -/
inductive Rebuilt : (pattern candidate result : Expr) → Prop where
  | leaf {h : Nat} {x : Leaf} {c y : Expr} (same : y.same c = true) : Rebuilt (.leaf h x) c y
  | scale {h i j : Nat} (k k' : Float) {p c y : Expr} (operand : Rebuilt p c y) :
      Rebuilt (.unary h (.scale k) p) (.unary i (.scale k') c) (.unary j (.scale k) y)
  | unary {h i j : Nat} {op : UnaryOp} (plain : op.kind ≠ .scale) {p c y : Expr}
      (operand : Rebuilt p c y) : Rebuilt (.unary h op p) (.unary i op c) (.unary j op y)
  | binary {h i j : Nat} {op : BinaryOp} {p q l r l' r' : Expr} (left : Rebuilt p l l')
      (right : Rebuilt q r r') : Rebuilt (.binary h op p q) (.binary i op l r) (.binary j op l' r')

theorem Instance.rebuilt (h : Instance σ c p) (filled : Filled σ p y) : Rebuilt p c y := by
  induction h generalizing y with
  | wildcard bound same =>
    obtain rfl := Option.some.inj (bound.symm.trans filled)
    exact .leaf same
  | literal same => exact .leaf (filled ▸ same)
  | future same => exact .leaf (filled ▸ same)
  | @unary x p i j op op' kind _ ih =>
    obtain ⟨k, z, rfl, filled⟩ := filled
    by_cases plain : op.kind = .scale
    · cases op <;> cases op' <;> simp_all [UnaryOp.kind]
      exact .scale _ _ (ih filled)
    · rw [← UnaryOp.eq_of_kind_eq kind plain]
      exact .unary plain (ih filled)
  | binary kind _ _ ihl ihr =>
    obtain ⟨k, l, r, rfl, filledl, filledr⟩ := filled
    rw [← BinaryOp.eq_of_kind_eq kind]
    exact .binary (ihl filledl) (ihr filledr)

/-- Filling in and then matching gives back the bindings of the pattern's wildcards. Matching and
then filling in gives back the expression, over the very nodes that stood opposite the leaves of the
pattern. -/
theorem construct_matchPattern :
    (∀ (p : Expr) (σ : Bindings), (∀ w ∈ p.wildcards, σ.find? w ≠ none) → ∀ s : Session,
      ∃ y, (s.run (p.construct σ).run).1 = .ok y ∧ (y.matchPattern p {}).error = none ∧
        (y.matchPattern p {}).bindings.pairs.map Prod.fst = p.wildcards.eraseDups ∧
        ∀ w ∈ p.wildcards, (y.matchPattern p {}).bindings.find? w = σ.find? w) ∧
    ∀ c p : Expr, (c.matchPattern p {}).error = none → ∀ s : Session,
      ∃ y, (s.run (p.construct (c.matchPattern p {}).bindings).run).1 = .ok y ∧
        Rebuilt p c y := by
  refine ⟨fun p σ bound s => ?_, fun c p matched s => ?_⟩
  · rw [p.wildcards_eq] at bound ⊢
    obtain ⟨y, made, filled⟩ := construct_filled bound s
    obtain ⟨matches_iff, least, -⟩ := matchPattern_mostGeneral y p {}
    have matched := matches_iff.2 ⟨σ, σ.within_empty, filled.instance⟩
    obtain ⟨found, -, new, pairs, keys⟩ := least matched
    refine ⟨y, made, matched, ?_, fun w hw => ?_⟩
    · rw [pairs, List.map_append, keys]
      simp
    · obtain ⟨x, hx⟩ := Option.ne_none_iff_exists'.1 (found.find?_ne_none w hw)
      have kept := matchPattern_bound (P := fun w x => σ.find? w = some x) filled.find?_eq_candidate w x hx
      rw [hx, kept]
  · obtain ⟨-, found⟩ := matchPattern_instance matched
    obtain ⟨y, made, filled⟩ := construct_filled found.find?_ne_none s
    exact ⟨y, made, found.rebuilt filled⟩

theorem symmetrized_construct_matchPattern :
    (∃ y, (({} : Session).run (symmetrized.construct
        ⟨[(⟨0, "?a"⟩, .unary 9 .async symmetrized)]⟩).run).1 = .ok y ∧
      (y.matchPattern symmetrized {}).bindings.find? ⟨0, "?a"⟩ =
        some (.unary 9 .async symmetrized)) ∧
    ((Expr.unary 9 (.scale 5) (sumWithTranspose 5 5)).matchPattern
      (.unary 10 (.scale 2) symmetrized) {}).error = none ∧
    ∃ y, Rebuilt (.unary 10 (.scale 2) symmetrized) (.unary 9 (.scale 5) (sumWithTranspose 5 5))
      y := by
  obtain ⟨filling, matching⟩ := construct_matchPattern
  have wildcards : symmetrized.wildcards = [⟨0, "?a"⟩, ⟨0, "?a"⟩] := symmetrized.wildcards_eq
  refine ⟨?_, rfl, ?_⟩
  · obtain ⟨y, made, -, -, found⟩ := filling symmetrized
      ⟨[(⟨0, "?a"⟩, .unary 9 .async symmetrized)]⟩ (by simp [wildcards, Bindings.find?]) {}
    exact ⟨y, made, found _ (by simp [wildcards])⟩
  · obtain ⟨y, -, rebuilt⟩ := matching (.unary 9 (.scale 5) (sumWithTranspose 5 5))
      (.unary 10 (.scale 2) symmetrized) rfl {}
    exact ⟨y, rebuilt⟩

end LazyMatrix.Expr
