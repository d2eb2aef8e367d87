import LazyMatrix.Pattern.Construct
import LazyMatrix.Proofs.Building
import LazyMatrix.Proofs.Expr.Denotation
import LazyMatrix.Proofs.Pattern.Instance

/-! Patterns filled in. What is constructed from a pattern is the pattern with its wildcards
replaced, over nodes that exist. An expression that matches a pattern without scales is that pattern
filled in with what the match has bound. -/

namespace LazyMatrix

def Bindings.Among (nodes : Set Expr) (σ : Bindings) : Prop :=
  ∀ w x, σ.find? w = some x → x ∈ nodes

theorem UnaryOp.eq_of_kind_eq {op op' : UnaryOp} (h : op.kind = op'.kind)
    (unscaled : op.kind ≠ .scale) : op = op' := by
  cases op <;> cases op' <;> simp_all [kind]

theorem BinaryOp.eq_of_kind_eq {op op' : BinaryOp} (h : op.kind = op'.kind) : op = op' := by
  cases op <;> cases op' <;> simp_all [kind]

namespace Expr

/-- The pattern with its wildcards replaced as `σ` has it, whatever the handles of its operators. -/
def Filled (σ : Bindings) : (pattern result : Expr) → Prop
  | .leaf _ (.wildcard w), y => σ.find? w = some y
  | .leaf h x, y => y = .leaf h x
  | .unary _ op p, y => ∃ h z, y = .unary h op z ∧ Filled σ p z
  | .binary _ op p q, y => ∃ h l r, y = .binary h op l r ∧ Filled σ p l ∧ Filled σ q r

def Rooted (nodes : Set Expr) : Expr → Prop
  | .leaf _ (.wildcard _) => True
  | .leaf h x => .leaf h x ∈ nodes
  | .unary _ _ p => p.Rooted nodes
  | .binary _ _ p q => p.Rooted nodes ∧ q.Rooted nodes

def Unscaled : Expr → Prop
  | .leaf _ _ => True
  | .unary _ op p => op.kind ≠ .scale ∧ p.Unscaled
  | .binary _ _ p q => p.Unscaled ∧ q.Unscaled

variable {nodes : Set Expr} {σ : Bindings}

theorem Rooted.mono {p : Expr} {more : Set Expr} (h : p.Rooted nodes) (le : nodes ⊆ more) :
    p.Rooted more := by
  induction p with
  | leaf i x =>
    cases x with
    | wildcard w => trivial
    | literal d => exact le h
    | future f => exact le h
  | unary i op p ih => exact ih h
  | binary i op p q ihp ihq => exact ⟨ihp h.1, ihq h.2⟩

theorem Filled.intact {p y : Expr} (h : p.Filled σ y) (intact : p.Intact)
    (among : σ.Among {z | z.Intact}) : y.Intact := by
  induction p generalizing y with
  | leaf i x =>
    cases x with
    | wildcard w => exact among w y h
    | literal d => exact h ▸ intact
    | future f => exact h ▸ intact
  | unary i op p ih =>
    obtain ⟨_, z, rfl, filled⟩ := h
    exact (ih filled intact : z.Intact)
  | binary i op p q ihp ihq =>
    obtain ⟨_, l, r, rfl, filledl, filledr⟩ := h
    exact ⟨ihp filledl intact.1, ihq filledr intact.2⟩

theorem Filled.wildcardLeaves_eq {p y : Expr} (h : p.Filled σ y) {f : Wildcard → Expr}
    (bound : ∀ w ∈ p.wildcardLeaves, σ.find? w = some (f w)) :
    y.wildcardLeaves = p.wildcardLeaves.flatMap fun w => (f w).wildcardLeaves := by
  induction p generalizing y with
  | leaf i x =>
    cases x with
    | wildcard w =>
      obtain rfl : y = f w := Option.some.inj (h.symm.trans (bound w (by simp [wildcardLeaves])))
      simp [wildcardLeaves]
    | literal d =>
      obtain rfl : y = _ := h
      rfl
    | future f =>
      obtain rfl : y = _ := h
      rfl
  | unary i op p ih =>
    obtain ⟨_, z, rfl, filled⟩ := h
    rw [wildcardLeaves, wildcardLeaves]
    exact ih filled bound
  | binary i op p q ihp ihq =>
    obtain ⟨_, l, r, rfl, filledl, filledr⟩ := h
    rw [wildcardLeaves, wildcardLeaves, List.flatMap_append,
      ihp filledl fun w hw => bound w (List.mem_append_left _ hw),
      ihq filledr fun w hw => bound w (List.mem_append_right _ hw)]

theorem construct_spec {p : Expr} (rooted : p.Rooted nodes) (among : σ.Among nodes) :
    Attempts nodes (construct σ p) fun more y => y ∈ more ∧ Filled σ p y := by
  induction p generalizing nodes with
  | leaf h x =>
    cases x with
    | wildcard w =>
      rw [construct, constructLeaf]
      cases bound : σ.find? w with
      | some y => exact attempts_pure ⟨among w y bound, bound⟩
      | none => exact attempts_throw _
    | literal d => exact attempts_pure ⟨rooted, rfl⟩
    | future f => exact attempts_pure ⟨rooted, rfl⟩
  | unary h op p ih =>
    refine attempts_bind (ih rooted among) fun more z le ⟨hz, filled⟩ => ?_
    refine attempts_lift ((builds_newUnary op hz).mono ?_)
    rintro most _ - ⟨hy, i, rfl⟩
    exact ⟨hy, i, z, rfl, filled⟩
  | binary h op p q ihp ihq =>
    refine attempts_bind (ihp rooted.1 among) fun more l le ⟨hl, filledl⟩ => ?_
    refine attempts_bind (ihq (rooted.2.mono le) fun w x bound => le (among w x bound))
      fun most r le' ⟨hr, filledr⟩ => ?_
    refine attempts_lift ((builds_newBinary op (le' hl) hr).mono ?_)
    rintro last _ - ⟨hy, i, rfl⟩
    exact ⟨hy, i, l, r, rfl, filledl, filledr⟩

theorem construct_succeeds {p : Expr} (bound : ∀ w ∈ p.wildcardLeaves, σ.find? w ≠ none) :
    Succeeds (construct σ p) := by
  induction p with
  | leaf h x =>
    cases x with
    | wildcard w =>
      rw [construct, constructLeaf]
      cases free : σ.find? w with
      | some y => exact succeeds_pure y
      | none => exact absurd free (bound w (by simp [wildcardLeaves]))
    | literal d => exact succeeds_pure _
    | future f => exact succeeds_pure _
  | unary h op p ih => exact succeeds_bind (ih bound) fun z => succeeds_lift _
  | binary h op p q ihp ihq =>
    have left := ihp fun w hw => bound w (List.mem_append_left _ hw)
    have right := ihq fun w hw => bound w (List.mem_append_right _ hw)
    exact succeeds_bind left fun l => succeeds_bind right fun r => succeeds_lift _

theorem Instance.find?_ne_none {c p : Expr} (h : Instance σ c p) :
    ∀ w ∈ p.wildcardLeaves, σ.find? w ≠ none := by
  induction h with
  | wildcard found _ =>
    intro v hv
    simp only [wildcardLeaves, List.mem_singleton] at hv
    simp [hv, found]
  | literal | future => simp [wildcardLeaves]
  | unary _ _ ih => exact ih
  | binary _ _ _ ihl ihr =>
    intro v hv
    rw [wildcardLeaves, List.mem_append] at hv
    exact hv.elim (ihl v) (ihr v)

theorem candidate_mem (closed : ∀ x ∈ nodes, ∀ y ∈ x.operands, y ∈ nodes) {c p : Expr}
    (hc : c ∈ nodes) : ∀ x ∈ positions c p, x.candidate ∈ nodes := by
  induction p generalizing c with
  | leaf h x => simpa [positions] using hc
  | unary h op p ih =>
    refine forall_positions_unary.2 ⟨hc, fun h' op' x same _ => ih (closed c hc x ?_)⟩
    simp [same, operands]
  | binary h op p q ihp ihq =>
    refine forall_positions_binary.2 ⟨hc, fun h' op' l r same _ => ⟨ihp (closed c hc l ?_), ?_⟩⟩
    · simp [same, operands]
    · exact ihq (closed c hc r (by simp [same, operands]))

theorem Position.resolve_bound {P : Wildcard → Expr → Prop} {p : Position} {b b' : Bindings}
    (h : p.resolve b = .ok b') (held : ∀ w x, b.find? w = some x → P w x)
    (hp : ∀ w ∈ p.wildcards, P w p.candidate) : ∀ w x, b'.find? w = some x → P w x := by
  obtain plain | ⟨c, i, w, rfl⟩ := p.plain_or_wildcard
  · obtain ⟨rfl, -⟩ := resolve_plain plain h
    exact held
  · simp only [resolve] at h
    split at h
    · next free =>
      obtain rfl := Except.ok.inj h
      intro v x found
      rw [Bindings.find?_insert free] at found
      split at found
      · next same =>
        subst same
        obtain rfl := Option.some.inj found
        exact hp v (by simp [wildcards])
      · exact held v x found
    · split at h
      · obtain rfl := Except.ok.inj h
        exact held
      · cases h

theorem Position.resolveAll_bound {P : Wildcard → Expr → Prop} {ps : List Position} {b : Bindings}
    (held : ∀ w x, b.find? w = some x → P w x)
    (hp : ∀ p ∈ ps, ∀ w ∈ p.wildcards, P w p.candidate) :
    ∀ w x, (resolveAll ps b).1.find? w = some x → P w x := by
  induction ps generalizing b with
  | nil => exact held
  | cons p ps ih =>
    rw [resolveAll]
    split
    · next first =>
      exact ih (resolve_bound first held (hp p (by simp))) fun q hq => hp q (by simp [hq])
    · exact held

theorem matchPattern_bound {P : Wildcard → Expr → Prop} {c p : Expr}
    (hp : ∀ x ∈ positions c p, ∀ w ∈ x.wildcards, P w x.candidate) :
    ∀ w x, (c.matchPattern p {}).bindings.find? w = some x → P w x := by
  have walked := Position.resolveAll_bound (P := P) (b := {})
    (fun w x found => by simp [Bindings.find?] at found) hp
  rwa [matchPattern_eq_resolveAll] at walked

theorem matchPattern_among (closed : ∀ x ∈ nodes, ∀ y ∈ x.operands, y ∈ nodes) {c p : Expr}
    (hc : c ∈ nodes) : (c.matchPattern p {}).bindings.Among nodes :=
  matchPattern_bound fun x hx _ _ => candidate_mem (p := p) closed hc x hx

theorem Instance.filled {next : Nat} (extant : Extant nodes next) (among : σ.Among nodes)
    {c p : Expr} (h : Instance σ c p) (hc : c ∈ nodes) (rooted : p.Rooted nodes)
    (unscaled : p.Unscaled) : Filled σ p c := by
  induction h with
  | wildcard bound same =>
    rw [Filled, bound, extant.eq_of_same (among _ _ bound) hc same]
  | literal same => exact (extant.eq_of_same rooted hc same).symm
  | future same => exact (extant.eq_of_same rooted hc same).symm
  | unary kind _ ih =>
    obtain ⟨plain, unscaled⟩ := unscaled
    rw [UnaryOp.eq_of_kind_eq kind plain]
    exact ⟨_, _, rfl, ih (extant.unary_mem hc) rooted unscaled⟩
  | binary kind _ _ ihl ihr =>
    obtain ⟨hl, hr⟩ := extant.binary_mem hc
    rw [BinaryOp.eq_of_kind_eq kind]
    exact ⟨_, _, _, rfl, ihl hl rooted.1 unscaled.1, ihr hr rooted.2 unscaled.2⟩

end Expr

end LazyMatrix
