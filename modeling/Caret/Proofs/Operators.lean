import Caret.Proofs.Derivation

/-!
# `Caret.Proofs.Operators`: operators without their levels

A precedence level says which operators may stand in an operand. It decides how operators are
nested, but not which texts a rule derives: what an operand may not hold can stand behind it, one
level further out. So a rule with primaries `P` and operators `O` derives `P (O P)*`.

* `Expr.chained` is this expression, and `Expr.rounds` is its second part.
* Derivations of the rule at any level, and of its operators, become derivations of these
  (`Yields.flatten`, `Awaits.flatten`). At level zero the converse holds as well
  (`Yields.rule_zero_iff`, `Awaits.rule_zero_iff`).
* Hence an operator may have an operand that is entered at level zero (`Yields.loop_cons` and its
  companions). This is how a network derives that does not look at levels.

The rules that are open while a token type is awaited do depend on the nesting. So what is said
about `Awaits` is up to the chain.
-/

set_option autoImplicit false

namespace Caret

section

variable {τ ρ : Type} {d : Definitions τ ρ} {e e' : Expr τ ρ} {greedy : Bool}
  {u v w : List TokenType} {c : Chain} {t : TokenType}

/-! ### Sequences of two and repetitions -/

/-- A sequence of two derives what both derive, one after the other. -/
theorem Yields.seqPair_iff : Yields d (.expr (.seq [e, e'])) w ↔
    ∃ u v, w = u ++ v ∧ Yields d (.expr e) u ∧ Yields d (.expr e') v := by
  constructor
  · intro h
    obtain ⟨u, v, rfl, hu, h⟩ := Yields.seqCons_iff.mp h
    obtain ⟨v, last, rfl, hv, h⟩ := Yields.seqCons_iff.mp h
    cases h
    exact ⟨u, v, by rw [List.append_nil], hu, hv⟩
  · rintro ⟨u, v, rfl, hu, hv⟩
    have hlast : Yields d (.expr (.seq [e'])) (v ++ []) := .seqCons hv .seqNil
    rw [List.append_nil] at hlast
    exact .seqCons hu hlast

/-- It waits in the first, or in the second behind the first. -/
theorem Awaits.seqPair_iff : Awaits d (.expr (.seq [e, e'])) w c t ↔
    Awaits d (.expr e) w c t ∨
      ∃ u v, w = u ++ v ∧ Yields d (.expr e) u ∧ Awaits d (.expr e') v c t := by
  constructor
  · intro h
    rcases Awaits.seqCons_iff.mp h with h | ⟨u, v, rfl, hu, h⟩
    · exact Or.inl h
    · rcases Awaits.seqCons_iff.mp h with h | ⟨_, _, -, -, h⟩
      · exact Or.inr ⟨u, v, rfl, hu, h⟩
      · cases h
  · rintro (h | ⟨u, v, rfl, hu, h⟩)
    · exact .seqHead h
    · exact .seqTail hu (.seqHead h)

/-- A repetition may be followed by further repetitions of the same. -/
theorem Yields.star_append (h : Yields d (.expr (.star e greedy)) u)
    (h' : Yields d (.expr (.star e greedy)) v) : Yields d (.expr (.star e greedy)) (u ++ v) := by
  -- The phrase is an index of the derivation, so it is named before the induction.
  generalize hx : Phrase.expr (.star e greedy) = x at h
  induction h with
  | starNil =>
      cases hx
      exact h'
  | starCons h₁ _ _ ih =>
      cases hx
      rw [List.append_assoc]
      exact .starCons h₁ (ih rfl)
  | _ => cases hx

/-- Behind some repetitions a later one may be waiting. -/
theorem Awaits.star_append (h : Yields d (.expr (.star e greedy)) u)
    (h' : Awaits d (.expr (.star e greedy)) v c t) :
    Awaits d (.expr (.star e greedy)) (u ++ v) c t := by
  generalize hx : Phrase.expr (.star e greedy) = x at h
  induction h with
  | starNil =>
      cases hx
      exact h'
  | starCons h₁ _ _ ih =>
      cases hx
      rw [List.append_assoc]
      exact .starTail h₁ (ih rfl)
  | _ => cases hx

end

/-! ### Primaries and operators in a row -/

namespace Expr

variable {τ ρ : Type}

/-- Any number of operators, with a primary behind each of them. -/
def rounds (primaries operators : List (Expr τ ρ)) : Expr τ ρ :=
  .star (.seq [.alt operators, .alt primaries]) true

/-- One primary, and then any number of operators with a primary behind each of them. -/
def chained (primaries operators : List (Expr τ ρ)) : Expr τ ρ :=
  .seq [.alt primaries, rounds primaries operators]

end Expr

section

variable {τ ρ : Type} {d : Definitions τ ρ} {primaries operators : List (Expr τ ρ)}
  {e : Expr τ ρ} {u v w : List TokenType} {c : Chain} {t : TokenType}

/-- One more round in front: an operator, and what may stand in a row behind it. -/
theorem Yields.rounds_cons (he : e ∈ operators) (h : Yields d (.expr e) u)
    (h' : Yields d (.expr (.chained primaries operators)) v) :
    Yields d (.expr (.rounds primaries operators)) (u ++ v) := by
  -- The operator makes a round with the first primary of the row.
  obtain ⟨p, rest, rfl, hp, hrest⟩ := Yields.seqPair_iff.mp h'
  rw [← List.append_assoc]
  exact .starCons (Yields.seqPair_iff.mpr ⟨u, p, rfl, .alt he h, hp⟩) hrest

/-- Behind an operator a row may be waiting. -/
theorem Awaits.rounds_cons (he : e ∈ operators) (h : Yields d (.expr e) u)
    (h' : Awaits d (.expr (.chained primaries operators)) v c t) :
    Awaits d (.expr (.rounds primaries operators)) (u ++ v) c t := by
  rcases Awaits.seqPair_iff.mp h' with h' | ⟨p, rest, rfl, hp, hrest⟩
  · exact .starHead (Awaits.seqPair_iff.mpr (Or.inr ⟨u, v, rfl, .alt he h, h'⟩))
  · rw [← List.append_assoc]
    exact .starTail (Yields.seqPair_iff.mpr ⟨u, p, rfl, .alt he h, hp⟩) hrest

/-- Further rounds may follow. -/
theorem Yields.chained_append (h : Yields d (.expr (.chained primaries operators)) u)
    (h' : Yields d (.expr (.rounds primaries operators)) v) :
    Yields d (.expr (.chained primaries operators)) (u ++ v) := by
  obtain ⟨p, rest, rfl, hp, hrest⟩ := Yields.seqPair_iff.mp h
  rw [List.append_assoc]
  exact Yields.seqPair_iff.mpr ⟨p, rest ++ v, rfl, hp, hrest.star_append h'⟩

/-- Behind a row further rounds may be waiting. -/
theorem Awaits.chained_append (h : Yields d (.expr (.chained primaries operators)) u)
    (h' : Awaits d (.expr (.rounds primaries operators)) v c t) :
    Awaits d (.expr (.chained primaries operators)) (u ++ v) c t := by
  obtain ⟨p, rest, rfl, hp, hrest⟩ := Yields.seqPair_iff.mp h
  rw [List.append_assoc]
  exact Awaits.seqPair_iff.mpr (Or.inr ⟨p, rest ++ v, rfl, hp, .star_append hrest h'⟩)

end

/-! ### Rules with operators -/

/-- The expression is what the parts of the rule come to if levels are left out. -/
inductive Phrase.Flattens {τ ρ : Type} (r : RuleIndex) (primaries operators : List (Expr τ ρ)) :
    Phrase τ ρ → Expr τ ρ → Prop where
  | rule {level : Int} : Flattens r primaries operators (.rule r level)
      (.chained primaries operators)
  | body {level : Int} : Flattens r primaries operators (.body r level)
      (.chained primaries operators)
  | loop {level : Int} {next : Nat} : Flattens r primaries operators (.loop r level next)
      (.rounds primaries operators)

section

variable {τ ρ : Type} {d : Definitions τ ρ} {r : RuleIndex} {primaries operators : List (Expr τ ρ)}
  {e : Expr τ ρ} {x : Phrase τ ρ} {u v w : List TokenType} {c : Chain} {t : TokenType}
  (hb : d.body r = some (.precedence primaries operators))

include hb

/-- What is derived at some level is derived without levels. -/
theorem Yields.flatten (h : Yields d x w) (hx : x.Flattens r primaries operators e) :
    Yields d (.expr e) w := by
  -- Induction on the derivation. Only phrases of the rule `r` itself are of interest, and inside
  -- primaries and operators derivations stay as they are.
  induction h generalizing e with
  | rule _ ih =>
      cases hx
      exact ih .body
  | plain hb' _ _ =>
      cases hx
      cases hb.symm.trans hb'
  | precedence hb' hp _ _ ih =>
      cases hx
      cases hb.symm.trans hb'
      exact Yields.seqPair_iff.mpr ⟨_, _, rfl, hp, ih .loop⟩
  | loopEnd =>
      cases hx
      exact .starNil
  | loopMore hb' _ he _ h₁ _ _ _ ihrule ihloop =>
      -- The operand is a row of its own, and the operators behind it go on with the row.
      cases hx
      cases hb.symm.trans hb'
      exact .rounds_cons (List.mem_of_getElem? he) h₁ ((ihrule .rule).chained_append (ihloop .loop))
  | _ => cases hx

/-- What is awaited at some level is awaited without levels, but maybe in other open rules. -/
theorem Awaits.flatten (h : Awaits d x w c t) (hx : x.Flattens r primaries operators e) :
    ∃ c', Awaits d (.expr e) w c' t := by
  induction h generalizing e with
  | rule _ ih =>
      cases hx
      exact ih .body
  | plain hb' _ _ =>
      cases hx
      cases hb.symm.trans hb'
  | primary hb' hp _ =>
      cases hx
      cases hb.symm.trans hb'
      exact ⟨_, Awaits.seqPair_iff.mpr (Or.inl hp)⟩
  | operators hb' hp _ ih =>
      cases hx
      cases hb.symm.trans hb'
      obtain ⟨c', hloop⟩ := ih .loop
      exact ⟨c', Awaits.seqPair_iff.mpr (Or.inr ⟨_, _, rfl, hp, hloop⟩)⟩
  | operator hb' _ he _ h _ =>
      cases hx
      cases hb.symm.trans hb'
      exact ⟨_, .starHead (Awaits.seqPair_iff.mpr (Or.inl (.alt (List.mem_of_getElem? he) h)))⟩
  | operand hb' _ he _ h₁ _ ih =>
      cases hx
      cases hb.symm.trans hb'
      -- The operand is a row that waits, behind the operator.
      obtain ⟨c', hrule⟩ := ih .rule
      exact ⟨c', .rounds_cons (List.mem_of_getElem? he) h₁ hrule⟩
  | loopMore hb' _ he _ h₁ h₂ _ ih =>
      cases hx
      cases hb.symm.trans hb'
      -- The operand is done, and the token type is awaited by an operator behind it.
      obtain ⟨c', hloop⟩ := ih .loop
      exact ⟨c', .rounds_cons (List.mem_of_getElem? he) h₁
        (.chained_append (Yields.flatten hb h₂ .rule) hloop)⟩
  | _ => cases hx

/-- A primary is an operand at every level. -/
theorem Yields.rule_of_primary (level : Int) (h : Yields d (.expr (.alt primaries)) w) :
    Yields d (.rule r level) w := by
  rw [← List.append_nil w]
  exact .rule (.precedence hb h .loopEnd)

omit hb in
/-- Level zero admits every operator. -/
theorem exists_operator_zero (he : e ∈ operators) :
    ∃ k : Nat, operators[k]? = some e ∧ (0 : Int) ≤ operators.length - k := by
  obtain ⟨k, hk⟩ := List.mem_iff_getElem?.mp he
  have hlt := (List.getElem?_eq_some_iff.mp hk).1
  exact ⟨k, hk, by omega⟩

/-- At level zero any operator may be waiting. -/
theorem Awaits.loop_operator (he : e ∈ operators) (h : Awaits d (.expr e) w c t) :
    Awaits d (.loop r 0 0) w c t := by
  obtain ⟨k, hk, hlevel⟩ := exists_operator_zero he
  exact .operator hb (Nat.zero_le k) hk hlevel h

/-- Operators with a primary behind each of them are operators at level zero. -/
theorem Yields.loop_zero_iff : Yields d (.loop r 0 0) w ↔
    Yields d (.expr (.rounds primaries operators)) w := by
  refine ⟨fun h => h.flatten hb .loop, fun h => ?_⟩
  generalize hx : Phrase.expr (Expr.rounds primaries operators) = x at h
  induction h with
  | starNil => exact .loopEnd
  | starCons hround _ _ ih =>
      cases hx
      -- The primary of the round is the operand, whatever its level. All later operators stand
      -- behind it, at level zero again.
      obtain ⟨u, p, rfl, hop, hp⟩ := Yields.seqPair_iff.mp hround
      cases hop with
      | alt he hop =>
          obtain ⟨k, hk, hlevel⟩ := exists_operator_zero he
          rw [List.append_assoc]
          exact .loopMore hb (Nat.zero_le k) hk hlevel hop (.rule_of_primary hb _ hp) (ih rfl)
  | _ => cases hx

/-- Operators at level zero wait for what rounds wait for, but maybe in other open rules. -/
theorem Awaits.loop_zero_iff : (∃ c, Awaits d (.loop r 0 0) w c t) ↔
    ∃ c, Awaits d (.expr (.rounds primaries operators)) w c t := by
  refine ⟨fun ⟨c, h⟩ => h.flatten hb .loop, ?_⟩
  rintro ⟨c, h⟩
  generalize hx : Phrase.expr (Expr.rounds primaries operators) = x at h
  induction h with
  | starHead h _ =>
      cases hx
      -- The first round waits in its operator or in its primary.
      rcases Awaits.seqPair_iff.mp h with h | ⟨u, v, rfl, hop, hp⟩
      · cases h with
        | alt he h => exact ⟨_, .loop_operator hb he h⟩
      · cases hop with
        | alt he hop =>
            obtain ⟨k, hk, hlevel⟩ := exists_operator_zero he
            exact ⟨_, .operand hb (Nat.zero_le k) hk hlevel hop (.rule (.primary hb hp))⟩
  | starTail hround _ ih =>
      cases hx
      obtain ⟨c', hrest⟩ := ih rfl
      obtain ⟨u, p, rfl, hop, hp⟩ := Yields.seqPair_iff.mp hround
      cases hop with
      | alt he hop =>
          obtain ⟨k, hk, hlevel⟩ := exists_operator_zero he
          rw [List.append_assoc]
          exact ⟨c', .loopMore hb (Nat.zero_le k) hk hlevel hop (.rule_of_primary hb _ hp) hrest⟩
  | _ => cases hx

/-- At level zero a rule with operators derives primaries with operators between them. -/
theorem Yields.rule_zero_iff : Yields d (.rule r 0) w ↔
    Yields d (.expr (.chained primaries operators)) w := by
  refine ⟨fun h => h.flatten hb .rule, fun h => ?_⟩
  obtain ⟨p, rest, rfl, hp, hrest⟩ := Yields.seqPair_iff.mp h
  exact .rule (.precedence hb hp ((Yields.loop_zero_iff hb).mpr hrest))

/-- The same for what is waited for. The open rules may differ, since a row has no nested
operands. -/
theorem Awaits.rule_zero_iff : (∃ c, Awaits d (.rule r 0) w c t) ↔
    ∃ c, Awaits d (.expr (.chained primaries operators)) w c t := by
  refine ⟨fun ⟨c, h⟩ => h.flatten hb .rule, ?_⟩
  rintro ⟨c, h⟩
  rcases Awaits.seqPair_iff.mp h with h | ⟨p, rest, rfl, hp, hrest⟩
  · exact ⟨_, .rule (.primary hb h)⟩
  · obtain ⟨c', hloop⟩ := (Awaits.loop_zero_iff hb).mpr ⟨c, hrest⟩
    exact ⟨_, .rule (.operators hb hp hloop)⟩

/-! ### Operands at level zero -/

/-- An operator may have an operand that is entered at level zero, and further operators behind
it. -/
theorem Yields.loop_cons (he : e ∈ operators) (h₁ : Yields d (.expr e) u)
    (h₂ : Yields d (.rule r 0) v) (h₃ : Yields d (.loop r 0 0) w) :
    Yields d (.loop r 0 0) (u ++ (v ++ w)) := by
  -- The operand may hold operators that its own level would not admit. In a row they are the same.
  rw [Yields.loop_zero_iff hb] at h₃ ⊢
  exact .rounds_cons he h₁ (((Yields.rule_zero_iff hb).mp h₂).chained_append h₃)

/-- The operand of an operator may be waiting, entered at level zero. -/
theorem Awaits.loop_operand (he : e ∈ operators) (h₁ : Yields d (.expr e) u)
    (h₂ : Awaits d (.rule r 0) v c t) : ∃ c', Awaits d (.loop r 0 0) (u ++ v) c' t := by
  obtain ⟨c', hrule⟩ := (Awaits.rule_zero_iff hb).mp ⟨c, h₂⟩
  exact (Awaits.loop_zero_iff hb).mpr ⟨c', .rounds_cons he h₁ hrule⟩

/-- So may an operator behind the operand. -/
theorem Awaits.loop_cons (he : e ∈ operators) (h₁ : Yields d (.expr e) u)
    (h₂ : Yields d (.rule r 0) v) (h₃ : Awaits d (.loop r 0 0) w c t) :
    ∃ c', Awaits d (.loop r 0 0) (u ++ (v ++ w)) c' t := by
  obtain ⟨c', hloop⟩ := (Awaits.loop_zero_iff hb).mp ⟨c, h₃⟩
  exact (Awaits.loop_zero_iff hb).mpr
    ⟨c', .rounds_cons he h₁ (.chained_append ((Yields.rule_zero_iff hb).mp h₂) hloop)⟩

end

end Caret
