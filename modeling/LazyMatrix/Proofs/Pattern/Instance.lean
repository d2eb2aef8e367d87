import LazyMatrix.Pattern.Match
import LazyMatrix.Proofs.Expr.Wildcards

/-! What it means to match. An expression is an instance of a pattern under bindings that put its
very nodes opposite wildcards and constant leaves, and operators of one kind opposite each other.
Matching finds the least such bindings on top of those it is given, or the first position from the
left at which there are none. -/

namespace LazyMatrix

namespace Bindings

def Within (a b : Bindings) : Prop :=
  ∀ w x, a.find? w = some x → ∃ y, b.find? w = some y ∧ y.same x

def missing (b : Bindings) (ws : List Wildcard) : List Wildcard :=
  (ws.filter fun w => (b.find? w).isNone).eraseDups

@[simp] theorem missing_empty (ws : List Wildcard) : missing {} ws = ws.eraseDups := by
  rw [missing, List.filter_eq_self.2]
  simp [find?]

theorem within_empty (σ : Bindings) : Within {} σ := fun w x found => by simp [find?] at found

theorem within_of_pairs {a b : Bindings} {new : List (Wildcard × Expr)}
    (h : b.pairs = a.pairs ++ new) : a.Within b := by
  intro w x bound
  refine ⟨x, ?_, by simp [Expr.same]⟩
  rw [find?, Option.map_eq_some_iff] at bound
  obtain ⟨pair, found, rfl⟩ := bound
  rw [find?, h, List.find?_append, found]
  rfl

theorem insert_pairs {b : Bindings} {w : Wildcard} (free : b.find? w = none) (e : Expr) :
    (b.insert w e).2.pairs = b.pairs ++ [(w, e)] := by simp [insert, free]

theorem find?_insert {b : Bindings} {w : Wildcard} (free : b.find? w = none) (e : Expr)
    (v : Wildcard) : (b.insert w e).2.find? v = if v = w then some e else b.find? v := by
  rw [find?, insert_pairs free, List.find?_append]
  by_cases h : v = w
  · subst h
    have absent : b.pairs.find? (fun pair => pair.1 == v) = none := by
      simpa [find?] using free
    simp [absent]
  · have other : (w == v) = false := by simpa using Ne.symm h
    simp [find?, h, other]

theorem insert_within {b σ : Bindings} {w : Wildcard} {e y : Expr} (free : b.find? w = none)
    (h : b.Within σ) (bound : σ.find? w = some y) (same : y.same e = true) :
    (b.insert w e).2.Within σ := by
  intro v x found
  rw [find?_insert free] at found
  split at found
  · obtain rfl : e = x := by simpa using found
    subst v
    exact ⟨y, bound, same⟩
  · exact h v x found

theorem missing_cons_of_bound {b : Bindings} {w : Wildcard} {x : Expr} (h : b.find? w = some x)
    (ws : List Wildcard) : b.missing (w :: ws) = b.missing ws := by
  simp [missing, h]

theorem missing_cons_of_free {b : Bindings} {w : Wildcard} (free : b.find? w = none) (e : Expr)
    (ws : List Wildcard) : b.missing (w :: ws) = w :: (b.insert w e).2.missing ws := by
  have rest : (ws.filter fun v => (b.find? v).isNone).filter (fun v => !v == w) =
      ws.filter fun v => ((b.insert w e).2.find? v).isNone := by
    rw [List.filter_filter]
    apply List.filter_congr
    intro v _
    rw [find?_insert free]
    by_cases h : v = w <;> simp [h]
  rw [missing, List.filter_cons_of_pos (by simp [free]), List.eraseDups_cons, rest, missing]

end Bindings

namespace Expr

/-- `Instance σ c p` says that `c` is an instance of the pattern `p` under the bindings `σ`. -/
inductive Instance (σ : Bindings) : Expr → Expr → Prop where
  | wildcard {c x : Expr} {h : Nat} {w : Wildcard} (bound : σ.find? w = some x)
      (same : x.same c = true) : Instance σ c (.leaf h (.wildcard w))
  | literal {c : Expr} {h : Nat} {d : Dense} (same : (leaf h (.literal d)).same c = true) :
      Instance σ c (.leaf h (.literal d))
  | future {c : Expr} {h : Nat} {f : Future} (same : (leaf h (.future f)).same c = true) :
      Instance σ c (.leaf h (.future f))
  | unary {x p : Expr} {h h' : Nat} {op op' : UnaryOp} (kind : op.kind = op'.kind)
      (operand : Instance σ x p) : Instance σ (.unary h' op' x) (.unary h op p)
  | binary {l r p q : Expr} {h h' : Nat} {op op' : BinaryOp} (kind : op.kind = op'.kind)
      (left : Instance σ l p) (right : Instance σ r q) :
      Instance σ (.binary h' op' l r) (.binary h op p q)

structure Position where
  candidate : Expr
  pattern : Expr

/-- The positions of a pattern, a node before its operands and a left operand before a right one.
There is nothing opposite the operands of an operator that is not opposite its like. -/
def positions (c : Expr) : (p : Expr) → List Position
  | .leaf h x => [⟨c, .leaf h x⟩]
  | .unary h op p => ⟨c, .unary h op p⟩ ::
      match c with
      | .unary _ op' x => if op.kind = op'.kind then positions x p else []
      | _ => []
  | .binary h op p q => ⟨c, .binary h op p q⟩ ::
      match c with
      | .binary _ op' l r => if op.kind = op'.kind then positions l p ++ positions r q else []
      | _ => []

variable {c p q : Expr} {h : Nat}

theorem eq_unary_of_kind {op : UnaryOp} (kind : op.kind = c.kind) :
    ∃ h' op' x, c = .unary h' op' x := by
  cases c with
  | leaf h' x => cases op <;> cases x <;> simp [Expr.kind, UnaryOp.kind, Leaf.kind] at kind
  | unary h' op' x => exact ⟨h', op', x, rfl⟩
  | binary h' op' l r =>
    cases op <;> cases op' <;> simp [Expr.kind, UnaryOp.kind, BinaryOp.kind] at kind

theorem eq_binary_of_kind {op : BinaryOp} (kind : op.kind = c.kind) :
    ∃ h' op' l r, c = .binary h' op' l r := by
  cases c with
  | leaf h' x => cases op <;> cases x <;> simp [Expr.kind, BinaryOp.kind, Leaf.kind] at kind
  | unary h' op' x =>
    cases op <;> cases op' <;> simp [Expr.kind, UnaryOp.kind, BinaryOp.kind] at kind
  | binary h' op' l r => exact ⟨h', op', l, r, rfl⟩

theorem positions_unary_of_ne {op : UnaryOp} (ne : op.kind ≠ c.kind) :
    positions c (.unary h op p) = [⟨c, .unary h op p⟩] := by
  cases c with
  | leaf | binary => simp [positions]
  | unary h' op' x =>
    have other : op.kind ≠ op'.kind := ne
    simp [positions, other]

theorem positions_binary_of_ne {op : BinaryOp} (ne : op.kind ≠ c.kind) :
    positions c (.binary h op p q) = [⟨c, .binary h op p q⟩] := by
  cases c with
  | leaf | unary => simp [positions]
  | binary h' op' l r =>
    have other : op.kind ≠ op'.kind := ne
    simp [positions, other]

namespace Position

def Meets (σ : Bindings) : Position → Prop
  | ⟨c, .leaf _ (.wildcard w)⟩ => ∃ x, σ.find? w = some x ∧ x.same c = true
  | ⟨c, .leaf h x⟩ => (leaf h x).same c = true
  | ⟨c, p⟩ => p.kind = c.kind

/-- Why a position is refused when `b` is bound already. -/
inductive Clash (b : Bindings) : Position → MatchError → Prop where
  | rebinding {c x : Expr} {h : Nat} {w : Wildcard} (bound : b.find? w = some x)
      (other : x.same c = false) : Clash b ⟨c, .leaf h (.wildcard w)⟩ (.rebinding w x c)
  | literal {c : Expr} {h : Nat} {d : Dense} (other : (leaf h (.literal d)).same c = false) :
      Clash b ⟨c, .leaf h (.literal d)⟩ (.leaf (.leaf h (.literal d)) c)
  | future {c : Expr} {h : Nat} {f : Future} (other : (leaf h (.future f)).same c = false) :
      Clash b ⟨c, .leaf h (.future f)⟩ (.leaf (.leaf h (.future f)) c)
  | unary {c p : Expr} {h : Nat} {op : UnaryOp} (other : op.kind ≠ c.kind) :
      Clash b ⟨c, .unary h op p⟩ (.kind op.kind c.kind)
  | binary {c p q : Expr} {h : Nat} {op : BinaryOp} (other : op.kind ≠ c.kind) :
      Clash b ⟨c, .binary h op p q⟩ (.kind op.kind c.kind)

def wildcards : Position → List Wildcard
  | ⟨_, .leaf _ (.wildcard w)⟩ => [w]
  | _ => []

end Position

/-- `b'` is `b` followed by what these positions bind, which is the least that meets them all. -/
structure Position.Binds (b : Bindings) (ps : List Position) (b' : Bindings) : Prop where
  pairs : ∃ new, b'.pairs = b.pairs ++ new ∧
    new.map Prod.fst = b.missing (ps.flatMap Position.wildcards)
  meets : ∀ p ∈ ps, p.Meets b'
  least : ∀ σ, b.Within σ → (∀ p ∈ ps, p.Meets σ) → b'.Within σ

namespace Position

def resolve (b : Bindings) : Position → Except MatchError Bindings
  | ⟨c, .leaf _ (.wildcard w)⟩ => match b.find? w with
    | none => .ok (b.insert w c).2
    | some x => if x.same c then .ok b else .error (.rebinding w x c)
  | ⟨c, .leaf h x⟩ => if (leaf h x).same c then .ok b else .error (.leaf (.leaf h x) c)
  | ⟨c, p⟩ => if p.kind = c.kind then .ok b else .error (.kind p.kind c.kind)

def resolveAll : List Position → Bindings → Bindings × Option MatchError
  | [], b => (b, none)
  | p :: ps, b => match p.resolve b with
    | .ok b => resolveAll ps b
    | .error e => (b, some e)

theorem resolveAll_append (ps qs : List Position) (b : Bindings) :
    resolveAll (ps ++ qs) b = match resolveAll ps b with
      | (b, none) => resolveAll qs b
      | (b, some e) => (b, some e) := by
  induction ps generalizing b with
  | nil => rfl
  | cons p ps ih =>
    simp only [List.cons_append, resolveAll]
    cases p.resolve b with
    | ok b => exact ih b
    | error e => rfl

end Position

theorem matchAt_unary_of_ne {op : UnaryOp} (ne : op.kind ≠ c.kind) (depth : Nat) (b : Bindings) :
    matchAt depth c (.unary h op p) b =
      .after (.tried depth c (.unary h op p)) (matchOther depth op.kind c.kind b) := by
  cases c with
  | leaf | binary => simp [matchAt]
  | unary h' op' x =>
    have other : op.kind ≠ op'.kind := ne
    simp [matchAt, kind, other]

theorem matchAt_binary_of_ne {op : BinaryOp} (ne : op.kind ≠ c.kind) (depth : Nat) (b : Bindings) :
    matchAt depth c (.binary h op p q) b =
      .after (.tried depth c (.binary h op p q)) (matchOther depth op.kind c.kind b) := by
  cases c with
  | leaf | unary => simp [matchAt]
  | binary h' op' l r =>
    have other : op.kind ≠ op'.kind := ne
    simp [matchAt, kind, other]

theorem matchAt_eq_resolveAll (c p : Expr) (depth : Nat) (b : Bindings) :
    ((matchAt depth c p b).bindings, (matchAt depth c p b).error) =
      Position.resolveAll (positions c p) b := by
  induction p generalizing c depth b with
  | leaf h x =>
    cases x with
    | wildcard w =>
      simp only [matchAt, Matched.after, matchWildcard, positions, Position.resolveAll,
        Position.resolve]
      cases b.find? w with
      | none => rfl
      | some x => cases h : x.same c <;> simp [h, Matched.succeed, Matched.fail]
    | literal d =>
      simp only [matchAt, Matched.after, matchLeaf, positions, Position.resolveAll,
        Position.resolve]
      cases (leaf h (.literal d)).same c <;> rfl
    | future f =>
      simp only [matchAt, Matched.after, matchLeaf, positions, Position.resolveAll,
        Position.resolve]
      cases (leaf h (.future f)).same c <;> rfl
  | unary h op p ih =>
    by_cases same : op.kind = c.kind
    · obtain ⟨h', op', x, rfl⟩ := eq_unary_of_kind same
      have same : op.kind = op'.kind := same
      simpa [matchAt, Matched.after, positions, Position.resolveAll, Position.resolve, kind, same]
        using ih x (depth + 1) b
    · rw [matchAt_unary_of_ne same, positions_unary_of_ne same]
      have refused : (unary h op p).kind ≠ c.kind := same
      simp [Matched.after, matchOther, Matched.fail, Position.resolveAll, Position.resolve, refused]
      rfl
  | binary h op p q ihp ihq =>
    by_cases same : op.kind = c.kind
    · obtain ⟨h', op', l, r, rfl⟩ := eq_binary_of_kind same
      have same : op.kind = op'.kind := same
      have left := ihp l (depth + 1) b
      simp only [matchAt, Matched.after, positions, Position.resolveAll, Position.resolve, kind,
        same, if_true, Position.resolveAll_append, ← left]
      cases failed : (matchAt (depth + 1) l p b).error with
      | none =>
        simpa [Matched.andThen, failed] using
          ihq r (depth + 1) (matchAt (depth + 1) l p b).bindings
      | some e => simp [Matched.andThen, failed]
    · rw [matchAt_binary_of_ne same, positions_binary_of_ne same]
      have refused : (binary h op p q).kind ≠ c.kind := same
      simp [Matched.after, matchOther, Matched.fail, Position.resolveAll, Position.resolve, refused]
      rfl

namespace Position

theorem Meets.mono {σ τ : Bindings} {p : Position} (m : p.Meets σ) (h : σ.Within τ) :
    p.Meets τ := by
  obtain ⟨c, _ | _ | _⟩ := p
  case leaf x =>
    cases x with
    | wildcard w =>
      obtain ⟨x, bound, same⟩ := m
      obtain ⟨y, bound, same'⟩ := h w x bound
      exact ⟨y, bound, by simp_all [Expr.same]⟩
    | literal d => exact m
    | future f => exact m
  case unary => exact m
  case binary => exact m

theorem plain_or_wildcard (p : Position) :
    p.wildcards = [] ∨ ∃ c h w, p = ⟨c, .leaf h (.wildcard w)⟩ := by
  obtain ⟨c, ⟨h, _ | _ | w⟩ | _ | _⟩ := p
  case leaf.wildcard => exact .inr ⟨c, h, w, rfl⟩
  all_goals exact .inl rfl

theorem resolve_plain {p : Position} {b b' : Bindings} (plain : p.wildcards = [])
    (h : p.resolve b = .ok b') : b' = b ∧ p.Meets b := by
  obtain ⟨c, ⟨i, _ | _ | w⟩ | _ | _⟩ := p
  case leaf.wildcard => simp [wildcards] at plain
  all_goals
    simp only [resolve] at h
    split at h
    · exact ⟨by simpa using h.symm, ‹_›⟩
    · simp at h

theorem resolve_ok {p : Position} {b b' : Bindings} (h : p.resolve b = .ok b') :
    p.Meets b' ∧ (∀ σ, b.Within σ → p.Meets σ → b'.Within σ) ∧
      ∃ new, b'.pairs = b.pairs ++ new ∧
        ∀ ws, b.missing (p.wildcards ++ ws) = new.map Prod.fst ++ b'.missing ws := by
  obtain plain | ⟨c, i, w, rfl⟩ := p.plain_or_wildcard
  · obtain ⟨rfl, meets⟩ := resolve_plain plain h
    exact ⟨meets, fun _ le _ => le, [], by simp, by simp [plain]⟩
  · cases free : b.find? w with
    | none =>
      obtain rfl : (b.insert w c).2 = b' := by simpa [resolve, free] using h
      refine ⟨⟨c, by simp [Bindings.find?_insert free], by simp [Expr.same]⟩, ?_, [(w, c)],
        Bindings.insert_pairs free c, fun ws => Bindings.missing_cons_of_free free c ws⟩
      intro σ le ⟨y, bound, same⟩
      exact Bindings.insert_within free le bound same
    | some x =>
      simp only [resolve, free] at h
      split at h
      · obtain rfl : b = b' := by simpa using h
        exact ⟨⟨x, free, ‹_›⟩, fun _ le _ => le, [], by simp,
          fun ws => Bindings.missing_cons_of_bound free ws⟩
      · simp at h

theorem resolve_error {p : Position} {b : Bindings} {e : MatchError}
    (h : p.resolve b = .error e) : Clash b p e := by
  obtain ⟨c, ⟨i, d | f | w⟩ | ⟨i, op, p⟩ | ⟨i, op, p, q⟩⟩ := p
  case leaf.wildcard =>
    simp only [resolve] at h
    split at h
    · simp at h
    · next x bound =>
      split at h
      · simp at h
      · next other =>
        obtain rfl := Except.error.inj h
        exact .rebinding bound (by simpa using other)
  all_goals
    simp only [resolve] at h
    split at h
    · simp at h
    · next other =>
      obtain rfl := Except.error.inj h
      constructor
      simpa [kind] using other

theorem Clash.not_meets {b σ : Bindings} {p : Position} {e : MatchError} (h : Clash b p e)
    (le : b.Within σ) : ¬ p.Meets σ := by
  intro m
  cases h with
  | rebinding bound other =>
    obtain ⟨y, found, same⟩ := m
    obtain ⟨z, found', same'⟩ := le _ _ bound
    simp_all [Expr.same]
  | literal other => simp_all [Meets]
  | future other => simp_all [Meets]
  | unary other => exact other m
  | binary other => exact other m

theorem Binds.within {b b' : Bindings} {ps : List Position} (h : Binds b ps b') :
    b.Within b' := by
  obtain ⟨new, pairs, _⟩ := h.pairs
  exact Bindings.within_of_pairs pairs

theorem binds_nil (b : Bindings) : Binds b [] b :=
  ⟨⟨[], by simp, rfl⟩, by simp, fun _ le _ => le⟩

theorem binds_cons {b b' b'' : Bindings} {p : Position} {ps : List Position}
    (h : p.resolve b = .ok b') (rest : Binds b' ps b'') : Binds b (p :: ps) b'' := by
  obtain ⟨meets, least, new, pairs, missing⟩ := resolve_ok h
  obtain ⟨more, pairs', missing'⟩ := rest.pairs
  refine ⟨⟨new ++ more, by simp [pairs', pairs], ?_⟩, ?_, ?_⟩
  · rw [List.map_append, List.flatMap_cons, missing, missing']
  · intro q hq
    rcases List.mem_cons.mp hq with rfl | hq
    · exact meets.mono rest.within
    · exact rest.meets q hq
  · intro σ le all
    exact rest.least σ (least σ le (all p (by simp))) fun q hq => all q (by simp [hq])

theorem resolveAll_ok {ps : List Position} {b b' : Bindings}
    (h : resolveAll ps b = (b', none)) : Binds b ps b' := by
  induction ps generalizing b with
  | nil =>
    obtain rfl : b = b' := by simpa [resolveAll] using h
    exact binds_nil b
  | cons p ps ih =>
    rw [resolveAll] at h
    cases first : p.resolve b with
    | ok b₁ => exact binds_cons first (ih (by simpa [first] using h))
    | error e => simp [first] at h

theorem resolveAll_error {ps : List Position} {b b' : Bindings} {e : MatchError}
    (h : resolveAll ps b = (b', some e)) :
    ∃ before p after, ps = before ++ p :: after ∧ Binds b before b' ∧ Clash b' p e := by
  induction ps generalizing b with
  | nil => simp [resolveAll] at h
  | cons p ps ih =>
    rw [resolveAll] at h
    cases first : p.resolve b with
    | ok b₁ =>
      obtain ⟨before, q, after, rfl, binds, clash⟩ := ih (by simpa [first] using h)
      exact ⟨p :: before, q, after, rfl, binds_cons first binds, clash⟩
    | error e' =>
      obtain ⟨rfl, rfl⟩ : b = b' ∧ e' = e := by simpa [first] using h
      exact ⟨[], p, ps, rfl, binds_nil b, resolve_error first⟩

end Position

theorem forall_positions_unary {P : Position → Prop} {op : UnaryOp} :
    (∀ x ∈ positions c (.unary h op p), P x) ↔ P ⟨c, .unary h op p⟩ ∧
      ∀ h' op' x, c = .unary h' op' x → op.kind = op'.kind → ∀ y ∈ positions x p, P y := by
  cases c with
  | leaf | binary => simp [positions]
  | unary h' op' x =>
    rw [positions, List.forall_mem_cons]
    refine and_congr_right fun _ => ⟨?_, fun all => ?_⟩
    · rintro all _ _ _ ⟨⟩ same
      rwa [if_pos same] at all
    · split
      · next same => exact all h' op' x rfl same
      · simp

theorem forall_positions_binary {P : Position → Prop} {op : BinaryOp} :
    (∀ x ∈ positions c (.binary h op p q), P x) ↔ P ⟨c, .binary h op p q⟩ ∧
      ∀ h' op' l r, c = .binary h' op' l r → op.kind = op'.kind →
        (∀ y ∈ positions l p, P y) ∧ ∀ y ∈ positions r q, P y := by
  cases c with
  | leaf | unary => simp [positions]
  | binary h' op' l r =>
    rw [positions, List.forall_mem_cons]
    refine and_congr_right fun _ => ⟨?_, fun all => ?_⟩
    · rintro all _ _ _ _ ⟨⟩ same
      rw [if_pos same] at all
      exact List.forall_mem_append.1 all
    · split
      · next same => exact List.forall_mem_append.2 (all h' op' l r rfl same)
      · simp

theorem instance_iff {σ : Bindings} {c p : Expr} :
    Instance σ c p ↔ ∀ x ∈ positions c p, x.Meets σ := by
  induction p generalizing c with
  | leaf h x =>
    simp only [positions, List.mem_singleton, forall_eq]
    cases x with
    | wildcard w =>
      refine ⟨fun i => ?_, fun ⟨x, bound, same⟩ => .wildcard bound same⟩
      cases i with | wildcard bound same => exact ⟨_, bound, same⟩
    | literal d =>
      refine ⟨fun i => ?_, fun same => .literal same⟩
      cases i with | literal same => exact same
    | future f =>
      refine ⟨fun i => ?_, fun same => .future same⟩
      cases i with | future same => exact same
  | unary h op p ih =>
    rw [forall_positions_unary]
    refine ⟨fun i => ?_, fun ⟨kind, operand⟩ => ?_⟩
    · cases i with
      | unary kind operand =>
        refine ⟨kind, fun _ _ _ same _ => ?_⟩
        cases same
        exact ih.mp operand
    · obtain ⟨h', op', x, rfl⟩ := eq_unary_of_kind kind
      exact .unary kind (ih.mpr (operand h' op' x rfl kind))
  | binary h op p q ihp ihq =>
    rw [forall_positions_binary]
    refine ⟨fun i => ?_, fun ⟨kind, operands⟩ => ?_⟩
    · cases i with
      | binary kind left right =>
        refine ⟨kind, fun _ _ _ _ same _ => ?_⟩
        cases same
        exact ⟨ihp.mp left, ihq.mp right⟩
    · obtain ⟨h', op', l, r, rfl⟩ := eq_binary_of_kind kind
      obtain ⟨left, right⟩ := operands h' op' l r rfl kind
      exact .binary kind (ihp.mpr left) (ihq.mpr right)

theorem Instance.wildcards_eq {σ : Bindings} {c p : Expr} (h : Instance σ c p) :
    (positions c p).flatMap Position.wildcards = p.wildcardLeaves := by
  induction h with
  | wildcard | literal | future => simp [positions, wildcardLeaves, Position.wildcards]
  | unary kind _ ih => simpa [positions, kind, wildcardLeaves, Position.wildcards] using ih
  | binary kind _ _ ihl ihr =>
    simp [positions, kind, wildcardLeaves, Position.wildcards, ihl, ihr]

theorem matchPattern_eq_resolveAll (c p : Expr) (b : Bindings) :
    Position.resolveAll (positions c p) b =
      ((c.matchPattern p b).bindings, (c.matchPattern p b).error) :=
  (matchAt_eq_resolveAll c p 0 b).symm

theorem matchPattern_instance {c p : Expr} {b : Bindings} (h : (c.matchPattern p b).error = none) :
    Position.Binds b (positions c p) (c.matchPattern p b).bindings ∧
      Instance (c.matchPattern p b).bindings c p := by
  have binds := Position.resolveAll_ok ((matchPattern_eq_resolveAll c p b).trans (by rw [h]))
  exact ⟨binds, instance_iff.mpr binds.meets⟩

theorem matchPattern_clash {c p : Expr} {b : Bindings} {e : MatchError}
    (h : (c.matchPattern p b).error = some e) :
    ∃ before x after, positions c p = before ++ x :: after ∧
      Position.Binds b before (c.matchPattern p b).bindings ∧
      Position.Clash (c.matchPattern p b).bindings x e :=
  Position.resolveAll_error ((matchPattern_eq_resolveAll c p b).trans (by rw [h]))

/-- A match succeeds just when some extension of the bindings makes the candidate an instance, and
then gives the least, which is the old bindings followed by the wildcards they lacked. Otherwise it
stops at the first position that no extension of what is bound by then can meet. -/
theorem matchPattern_mostGeneral (c p : Expr) (b : Bindings) :
    ((c.matchPattern p b).error = none ↔ ∃ σ, b.Within σ ∧ Instance σ c p) ∧
    ((c.matchPattern p b).error = none →
      Instance (c.matchPattern p b).bindings c p ∧
      (∀ σ, b.Within σ → Instance σ c p → (c.matchPattern p b).bindings.Within σ) ∧
      ∃ new, (c.matchPattern p b).bindings.pairs = b.pairs ++ new ∧
        new.map Prod.fst = b.missing p.wildcardLeaves) ∧
    ∀ e, (c.matchPattern p b).error = some e →
      (∃ new, (c.matchPattern p b).bindings.pairs = b.pairs ++ new) ∧
      ∃ before x after, positions c p = before ++ x :: after ∧
        Position.Binds b before (c.matchPattern p b).bindings ∧
        Position.Clash (c.matchPattern p b).bindings x e ∧
        ∀ σ, (c.matchPattern p b).bindings.Within σ → ¬ x.Meets σ := by
  refine ⟨⟨fun h => ?_, fun ⟨σ, le, i⟩ => ?_⟩, fun h => ?_, fun e h => ?_⟩
  · obtain ⟨binds, i⟩ := matchPattern_instance h
    exact ⟨_, binds.within, i⟩
  · cases h : (c.matchPattern p b).error with
    | none => rfl
    | some e =>
      obtain ⟨before, x, after, split, binds, clash⟩ := matchPattern_clash h
      have meets := instance_iff.mp i
      rw [split] at meets
      have least := binds.least σ le fun q hq => meets q (by simp [hq])
      exact absurd (meets x (by simp)) (clash.not_meets least)
  · obtain ⟨binds, i⟩ := matchPattern_instance h
    obtain ⟨new, pairs, keys⟩ := binds.pairs
    exact ⟨i, fun σ le j => binds.least σ le (instance_iff.mp j), new, pairs,
      by rw [keys, i.wildcards_eq]⟩
  · obtain ⟨before, x, after, split, binds, clash⟩ := matchPattern_clash h
    obtain ⟨new, pairs, _⟩ := binds.pairs
    exact ⟨⟨new, pairs⟩, before, x, after, split, binds, clash, fun _ le => clash.not_meets le⟩

def symmetrized : Expr :=
  .binary 4 (.elementwise .add) (.leaf 1 (.wildcard ⟨0, "?a"⟩))
    (.unary 3 .transpose (.leaf 2 (.wildcard ⟨0, "?a"⟩)))

def sumWithTranspose (left right : Nat) : Expr :=
  .binary 8 (.elementwise .add) (.leaf left (.literal ⟨⟨1, 1⟩, 1, #[2]⟩))
    (.unary 7 .transpose (.leaf right (.literal ⟨⟨1, 1⟩, 1, #[2]⟩)))

theorem symmetrized_mostGeneral :
    (∃ σ, Bindings.Within {} σ ∧ Instance σ (sumWithTranspose 5 5) symmetrized) ∧
    ¬ ∃ σ, Bindings.Within {} σ ∧ Instance σ (sumWithTranspose 5 6) symmetrized := by
  obtain ⟨shared, -, -⟩ := matchPattern_mostGeneral (sumWithTranspose 5 5) symmetrized {}
  obtain ⟨copied, -, -⟩ := matchPattern_mostGeneral (sumWithTranspose 5 6) symmetrized {}
  exact ⟨shared.1 rfl, fun found => nomatch copied.2 found⟩

end Expr

end LazyMatrix
