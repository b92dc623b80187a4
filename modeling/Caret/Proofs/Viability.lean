import Caret.Proofs.Suggestions

/-!
# `Caret.Proofs.Viability`: a token is suggested if the input can go on with it

Tokens are viable for a phrase if the phrase derives them, or if a leftmost derivation of it has
read them and waits for more (`Viable`). A token type is suggested behind some tokens if they are
viable together with it, and no token that another input goes on with is left out
(`suggestions_are_viable`). This compares traversals of different inputs.

* `Viable.awaits`: a derivation that reads more than some tokens waits, behind these, for the next
  one. This is by induction on the derivation, which is cut where the tokens end.
* `Awaits.viable`: a derivation that waits for a token can go on when the token is read. What is
  left to derive has not been entered, so it has to be viable in front of nothing.
* `Enumerates.ne_nil`: this is so if every choice has an alternative and every terminal matches a
  token type (`Expr.Passable`). A search in front of nothing then comes to some outcome, whatever
  way it takes.
-/

set_option autoImplicit false

namespace Caret

/-- The phrase derives the tokens, or a leftmost derivation of it has read them and waits for one
more. -/
def Viable {τ ρ : Type} (d : Definitions τ ρ) (x : Phrase τ ρ) (w : List TokenType) : Prop :=
  Yields d x w ∨ ∃ c t, Awaits d x w c t

/-- What a search comes to decides whether the tokens are viable. -/
theorem Enumerates.viable_iff {τ ρ : Type} {d : Definitions τ ρ} {x : Phrase τ ρ}
    {w : List TokenType} {os : List Outcome} (h : Enumerates d noAnswers x w os) :
    Viable d x w ↔ Outcome.candidates os ≠ [] ∨ Outcome.reachesEnd os = true := by
  have hcandidates : Outcome.candidates os ≠ [] ↔ ∃ c t, Awaits d x w c t := by
    constructor
    · intro hne
      obtain ⟨c, hc⟩ := List.exists_mem_of_ne_nil _ hne
      obtain ⟨t, chain, -, hawaits⟩ := (h.mem_candidates_iff c).mp hc
      exact ⟨chain, t, hawaits⟩
    · rintro ⟨chain, t, hawaits⟩
      exact List.ne_nil_of_mem ((h.mem_candidates_iff _).mpr ⟨t, chain, rfl, hawaits⟩)
  rw [h.reachesEnd_iff, hcandidates, Viable, or_comm]

/-! ### Cutting a derivation where tokens end -/

section

variable {τ ρ : Type} {d : Definitions τ ρ} {x : Phrase τ ρ}

/-- Of two parts of a text, the first or the second goes on behind some tokens of the text. -/
theorem append_cases {w v u u' : List TokenType} {t : TokenType} (h : u ++ u' = w ++ t :: v) :
    (∃ v', u = w ++ t :: v') ∨ ∃ w', w = u ++ w' ∧ u' = w' ++ t :: v := by
  rcases List.append_eq_append_iff.mp h with ⟨w', hw, hu'⟩ | ⟨v', hu, hv⟩
  · exact Or.inr ⟨w', hw, hu'⟩
  · cases v' with
    | nil => exact Or.inr ⟨[], by simpa using hu.symm, by simpa using hv.symm⟩
    | cons t' v' =>
        rw [List.cons_append, List.cons.injEq] at hv
        exact Or.inl ⟨v', by rw [hu, hv.1]⟩

/-- A text that is derived is waited for at each of its tokens. -/
theorem Yields.awaits {w v : List TokenType} {t : TokenType} (h : Yields d x (w ++ t :: v)) :
    ∃ c, Awaits d x w c t := by
  -- The induction is on the derivation. Of two parts, the one is cut in which the tokens end.
  generalize hall : w ++ t :: v = all at h
  induction h generalizing w v with
  | terminal ht =>
      cases w with
      | nil =>
          cases hall
          exact ⟨[], .terminal ht⟩
      | cons t' w => simp at hall
  | ref hcallee _ ih =>
      obtain ⟨c, hc⟩ := ih hall
      exact ⟨c, .ref hcallee hc⟩
  | empty => simp at hall
  | seqNil => simp at hall
  | seqCons hfirst _ ih ih' =>
      rcases append_cases hall.symm with ⟨v', hu⟩ | ⟨w', rfl, hu⟩
      · obtain ⟨c, hc⟩ := ih hu.symm
        exact ⟨c, .seqHead hc⟩
      · obtain ⟨c, hc⟩ := ih' hu.symm
        exact ⟨c, .seqTail hfirst hc⟩
  | alt hmem _ ih =>
      obtain ⟨c, hc⟩ := ih hall
      exact ⟨c, .alt hmem hc⟩
  | optionalSkip => simp at hall
  | optional _ ih =>
      obtain ⟨c, hc⟩ := ih hall
      exact ⟨c, .optional hc⟩
  | starNil => simp at hall
  | starCons hfirst _ ih ih' =>
      rcases append_cases hall.symm with ⟨v', hu⟩ | ⟨w', rfl, hu⟩
      · obtain ⟨c, hc⟩ := ih hu.symm
        exact ⟨c, .starHead hc⟩
      · obtain ⟨c, hc⟩ := ih' hu.symm
        exact ⟨c, .starTail hfirst hc⟩
  | plus hfirst _ ih ih' =>
      rcases append_cases hall.symm with ⟨v', hu⟩ | ⟨w', rfl, hu⟩
      · obtain ⟨c, hc⟩ := ih hu.symm
        exact ⟨c, .plusHead hc⟩
      · obtain ⟨c, hc⟩ := ih' hu.symm
        exact ⟨c, .plusTail hfirst hc⟩
  | rule _ ih =>
      obtain ⟨c, hc⟩ := ih hall
      exact ⟨_, .rule hc⟩
  | plain hbody _ ih =>
      obtain ⟨c, hc⟩ := ih hall
      exact ⟨c, .plain hbody hc⟩
  | precedence hbody hfirst _ ih ih' =>
      rcases append_cases hall.symm with ⟨v', hu⟩ | ⟨w', rfl, hu⟩
      · obtain ⟨c, hc⟩ := ih hu.symm
        exact ⟨c, .primary hbody hc⟩
      · obtain ⟨c, hc⟩ := ih' hu.symm
        exact ⟨c, .operators hbody hfirst hc⟩
  | loopEnd => simp at hall
  | loopMore hbody hle he hlevel hfirst hsecond _ ih ih' ih'' =>
      rcases append_cases hall.symm with ⟨v', hu⟩ | ⟨w', rfl, hu⟩
      · obtain ⟨c, hc⟩ := ih hu.symm
        exact ⟨c, .operator hbody hle he hlevel hc⟩
      · rcases append_cases hu with ⟨v', hu'⟩ | ⟨w'', rfl, hu'⟩
        · obtain ⟨c, hc⟩ := ih' hu'.symm
          exact ⟨c, .operand hbody hle he hlevel hfirst hc⟩
        · obtain ⟨c, hc⟩ := ih'' hu'.symm
          exact ⟨c, .loopMore hbody hle he hlevel hfirst hsecond hc⟩

/-- A derivation that has read more than some tokens has waited for the next one. Where the tokens
end in a part that was derived to its end, `Yields.awaits` applies to the part. -/
theorem Awaits.awaits {w v : List TokenType} {t t' : TokenType} {c' : Chain}
    (h : Awaits d x (w ++ t :: v) c' t') : ∃ c, Awaits d x w c t := by
  -- The tokens are an index of the derivation, so they are named before the induction.
  generalize hall : w ++ t :: v = all at h
  induction h generalizing w v with
  | terminal _ => simp at hall
  | ref hcallee _ ih =>
      obtain ⟨c, hc⟩ := ih hall
      exact ⟨c, .ref hcallee hc⟩
  | seqHead _ ih =>
      obtain ⟨c, hc⟩ := ih hall
      exact ⟨c, .seqHead hc⟩
  | seqTail hfirst _ ih =>
      rcases append_cases hall.symm with ⟨v', rfl⟩ | ⟨w', rfl, hu⟩
      · obtain ⟨c, hc⟩ := hfirst.awaits
        exact ⟨c, .seqHead hc⟩
      · obtain ⟨c, hc⟩ := ih hu.symm
        exact ⟨c, .seqTail hfirst hc⟩
  | alt hmem _ ih =>
      obtain ⟨c, hc⟩ := ih hall
      exact ⟨c, .alt hmem hc⟩
  | optional _ ih =>
      obtain ⟨c, hc⟩ := ih hall
      exact ⟨c, .optional hc⟩
  | starHead _ ih =>
      obtain ⟨c, hc⟩ := ih hall
      exact ⟨c, .starHead hc⟩
  | starTail hfirst _ ih =>
      rcases append_cases hall.symm with ⟨v', rfl⟩ | ⟨w', rfl, hu⟩
      · obtain ⟨c, hc⟩ := hfirst.awaits
        exact ⟨c, .starHead hc⟩
      · obtain ⟨c, hc⟩ := ih hu.symm
        exact ⟨c, .starTail hfirst hc⟩
  | plusHead _ ih =>
      obtain ⟨c, hc⟩ := ih hall
      exact ⟨c, .plusHead hc⟩
  | plusTail hfirst _ ih =>
      rcases append_cases hall.symm with ⟨v', rfl⟩ | ⟨w', rfl, hu⟩
      · obtain ⟨c, hc⟩ := hfirst.awaits
        exact ⟨c, .plusHead hc⟩
      · obtain ⟨c, hc⟩ := ih hu.symm
        exact ⟨c, .plusTail hfirst hc⟩
  | rule _ ih =>
      obtain ⟨c, hc⟩ := ih hall
      exact ⟨_, .rule hc⟩
  | plain hbody _ ih =>
      obtain ⟨c, hc⟩ := ih hall
      exact ⟨c, .plain hbody hc⟩
  | primary hbody _ ih =>
      obtain ⟨c, hc⟩ := ih hall
      exact ⟨c, .primary hbody hc⟩
  | operators hbody hfirst _ ih =>
      rcases append_cases hall.symm with ⟨v', rfl⟩ | ⟨w', rfl, hu⟩
      · obtain ⟨c, hc⟩ := hfirst.awaits
        exact ⟨c, .primary hbody hc⟩
      · obtain ⟨c, hc⟩ := ih hu.symm
        exact ⟨c, .operators hbody hfirst hc⟩
  | operator hbody hle he hlevel _ ih =>
      obtain ⟨c, hc⟩ := ih hall
      exact ⟨c, .operator hbody hle he hlevel hc⟩
  | operand hbody hle he hlevel hfirst _ ih =>
      rcases append_cases hall.symm with ⟨v', rfl⟩ | ⟨w', rfl, hu⟩
      · obtain ⟨c, hc⟩ := hfirst.awaits
        exact ⟨c, .operator hbody hle he hlevel hc⟩
      · obtain ⟨c, hc⟩ := ih hu.symm
        exact ⟨c, .operand hbody hle he hlevel hfirst hc⟩
  | loopMore hbody hle he hlevel hfirst hsecond _ ih =>
      rcases append_cases hall.symm with ⟨v', rfl⟩ | ⟨w', rfl, hu⟩
      · obtain ⟨c, hc⟩ := hfirst.awaits
        exact ⟨c, .operator hbody hle he hlevel hc⟩
      · rcases append_cases hu with ⟨v', rfl⟩ | ⟨w'', rfl, hu'⟩
        · obtain ⟨c, hc⟩ := hsecond.awaits
          exact ⟨c, .operand hbody hle he hlevel hfirst hc⟩
        · obtain ⟨c, hc⟩ := ih hu'.symm
          exact ⟨c, .loopMore hbody hle he hlevel hfirst hsecond hc⟩

/-- Tokens that are viable are waited for one after the other. -/
theorem Viable.awaits {w v : List TokenType} {t : TokenType} (h : Viable d x (w ++ t :: v)) :
    ∃ c, Awaits d x w c t := by
  rcases h with hyields | ⟨c, t', hawaits⟩
  · exact hyields.awaits
  · exact hawaits.awaits

end

/-! ### Ways that are not blocked -/

/-- The expression does not block the way by itself: a choice has an alternative, and a terminal has
the property. -/
def Expr.Passable {τ ρ : Type} (P : τ → Prop) : Expr τ ρ → Prop
  | .terminal t => P t
  | .alt alternatives => alternatives ≠ []
  | _ => True

/-- No part of the expression blocks the way. -/
def Expr.AllPassable {τ ρ : Type} (P : τ → Prop) (e : Expr τ ρ) : Prop :=
  ∀ x ∈ e.nodes, x.Passable P

/-- No part of the body blocks the way, and one of the primaries can be taken. -/
def Body.AllPassable {τ ρ : Type} (P : τ → Prop) : Body τ ρ → Prop
  | .plain e => e.AllPassable P
  | .precedence primaries operators =>
      primaries ≠ [] ∧ (∀ e ∈ primaries, e.AllPassable P) ∧ ∀ e ∈ operators, e.AllPassable P

section

variable {τ ρ : Type} {P : τ → Prop} {e : Expr τ ρ} {es : List (Expr τ ρ)} {greedy : Bool}

/-- The parts of a list are the parts of its expressions. -/
theorem Expr.mem_nodesOfList {x : Expr τ ρ} :
    x ∈ Expr.nodesOfList es ↔ ∃ e ∈ es, x ∈ e.nodes := by
  induction es with
  | nil => simp [nodesOfList]
  | cons e es ih => simp [nodesOfList, ih]

/-- The expression is one of its parts. -/
theorem Expr.AllPassable.self (h : e.AllPassable P) : e.Passable P := by
  refine h e ?_
  cases e <;> simp [nodes]

/-- A sequence does not block the way if none of its expressions does. -/
theorem Expr.allPassable_seq : (Expr.seq es).AllPassable P ↔ ∀ e ∈ es, e.AllPassable P := by
  simp only [AllPassable, nodes, List.forall_mem_cons, mem_nodesOfList, Passable, true_and]
  grind

/-- A choice must also have an alternative. -/
theorem Expr.allPassable_alt :
    (Expr.alt es).AllPassable P ↔ es ≠ [] ∧ ∀ e ∈ es, e.AllPassable P := by
  simp only [AllPassable, nodes, List.forall_mem_cons, mem_nodesOfList, Passable]
  grind

/-- An optional part blocks the way where the part does. -/
theorem Expr.allPassable_optional :
    (Expr.optional e greedy).AllPassable P ↔ e.AllPassable P := by
  simp [AllPassable, nodes, Passable]

/-- So does a repeated one. -/
theorem Expr.allPassable_star : (Expr.star e greedy).AllPassable P ↔ e.AllPassable P := by
  simp [AllPassable, nodes, Passable]

/-- And one that is repeated at least once. -/
theorem Expr.allPassable_plus : (Expr.plus e greedy).AllPassable P ↔ e.AllPassable P := by
  simp [AllPassable, nodes, Passable]

end

/-- No rule of the definitions blocks the way. -/
def Definitions.Passable {τ ρ : Type} (d : Definitions τ ρ) : Prop :=
  ∀ r body, d.body r = some body → body.AllPassable (d.symbols · ≠ [])

/-- No expression of the phrase blocks the way. -/
def Phrase.Passable {τ ρ : Type} (d : Definitions τ ρ) : Phrase τ ρ → Prop
  | .expr e => e.AllPassable (d.symbols · ≠ [])
  | _ => True

open Outcome in
/-- A search in front of nothing comes to some outcome. -/
theorem Enumerates.ne_nil {τ ρ : Type} {d : Definitions τ ρ} {x : Phrase τ ρ} {os : List Outcome}
    (hd : d.Passable) (h : Enumerates d noAnswers x [] os) (hx : x.Passable d) : os ≠ [] := by
  -- What is read without tokens leaves no tokens, so the second of two parts is searched in front
  -- of nothing again.
  have hthen : ∀ {y : Phrase τ ρ} {os : List Outcome} {f : List TokenType → List Outcome},
      Enumerates d noAnswers y [] os → os ≠ [] → (.done [] ∈ os → f [] ≠ []) →
        andThen os f ≠ [] := by
    intro y os f hos hne hf
    obtain ⟨o, ho⟩ := List.exists_mem_of_ne_nil _ hne
    cases o with
    | report id chain => exact List.ne_nil_of_mem (report_mem_andThen.mpr (Or.inl ho))
    | done u =>
        obtain rfl := List.suffix_nil.mp (hos.suffix ho)
        obtain ⟨o', ho'⟩ := List.exists_mem_of_ne_nil _ (hf ho)
        exact List.ne_nil_of_mem (List.mem_flatMap.mpr ⟨_, ho, ho'⟩)
  -- Induction on the search. An optional part can be left out, and of a choice the first
  -- alternative is enough.
  generalize hnone : ([] : List TokenType) = rest at h
  induction h with
  | terminal =>
      subst hnone
      have hsymbols : d.symbols _ ≠ [] := Expr.AllPassable.self hx
      simpa [ofSymbols] using hsymbols
  | ref _ _ ih => exact ih trivial hnone
  | empty => simp
  | seqNil => simp
  | seqCons hos hf ih ih' =>
      subst hnone
      have hparts := Expr.allPassable_seq.mp hx
      refine hthen hos (ih (hparts _ List.mem_cons_self) rfl) fun hdone => ih' [] hdone ?_ rfl
      exact Expr.allPassable_seq.mpr fun e he => hparts e (List.mem_cons_of_mem _ he)
  | altNil => exact absurd rfl (Expr.allPassable_alt.mp hx).1
  | altCons _ _ ih _ =>
      have hfirst := ih ((Expr.allPassable_alt.mp hx).2 _ List.mem_cons_self) hnone
      exact List.append_ne_nil_of_left_ne_nil hfirst _
  | optional _ _ => exact List.ne_nil_of_mem (mem_prefer.mpr (Or.inr List.mem_cons_self))
  | star _ _ _ _ => exact List.ne_nil_of_mem (mem_prefer.mpr (Or.inr List.mem_cons_self))
  | plus hos hf ih ih' =>
      subst hnone
      have hpart := Expr.allPassable_plus.mp hx
      refine hthen hos (ih hpart rfl) fun hdone => ih' [] hdone ?_ rfl
      exact Expr.allPassable_star.mpr hpart
  | answered hanswer => cases hanswer
  | entered _ _ ih => simpa using ih trivial hnone
  | plain hbody _ ih => exact ih (hd _ _ hbody) hnone
  | precedence hbody hos hf ih ih' =>
      subst hnone
      obtain ⟨hne, hprimaries, -⟩ := hd _ _ hbody
      refine hthen hos (ih ?_ rfl) fun hdone => ih' [] hdone trivial rfl
      exact Expr.allPassable_alt.mpr ⟨hne, hprimaries⟩
  | loopEnd _ _ => simp
  | loopSkip _ _ _ _ ih => exact ih trivial hnone
  | loopMore _ _ _ _ _ _ _ _ _ _ ih =>
      exact List.append_ne_nil_of_right_ne_nil _ (ih trivial hnone)

/-! ### Going on behind a token -/

/-- An expression of a well-formed grammar, no part of which blocks the way. -/
structure Expr.Open (rules : List (Rule Label RuleIndex)) (alphabet : Universe)
    (e : Expr Label RuleIndex) : Prop where
  sound : e.Sound rules alphabet
  passable : e.AllPassable (Label.values alphabet · ≠ [])

/-- The expression of the phrase is open. -/
def Phrase.Open (rules : List (Rule Label RuleIndex)) (alphabet : Universe) :
    Phrase Label RuleIndex → Prop
  | .expr e => e.Open rules alphabet
  | _ => True

section

variable {rules : List (Rule Label RuleIndex)} {alphabet : Universe} {e : Expr Label RuleIndex}
  {es : List (Expr Label RuleIndex)} {greedy : Bool}

/-- The parts of an open sequence are open. -/
theorem Expr.Open.seqCons (h : (Expr.seq (e :: es)).Open rules alphabet) :
    e.Open rules alphabet ∧ (Expr.seq es).Open rules alphabet := by
  have hparts := Expr.allPassable_seq.mp h.passable
  obtain ⟨hfirst, hrest⟩ := h.sound.seqCons
  refine ⟨⟨hfirst, hparts e List.mem_cons_self⟩, hrest, Expr.allPassable_seq.mpr ?_⟩
  exact fun e' he' => hparts e' (List.mem_cons_of_mem _ he')

/-- So are the alternatives of a choice. -/
theorem Expr.Open.of_mem (h : (Expr.alt es).Open rules alphabet) (he : e ∈ es) :
    e.Open rules alphabet :=
  ⟨h.sound.of_mem he, (Expr.allPassable_alt.mp h.passable).2 e he⟩

/-- So is an optional part. -/
theorem Expr.Open.optional (h : (Expr.optional e greedy).Open rules alphabet) :
    e.Open rules alphabet :=
  ⟨h.sound.optional, Expr.allPassable_optional.mp h.passable⟩

/-- So is a repeated part. -/
theorem Expr.Open.star (h : (Expr.star e greedy).Open rules alphabet) : e.Open rules alphabet :=
  ⟨h.sound.star.2, Expr.allPassable_star.mp h.passable⟩

/-- What is repeated at least once may be repeated further. -/
theorem Expr.Open.plus (h : (Expr.plus e greedy).Open rules alphabet) :
    (Expr.star e greedy).Open rules alphabet :=
  ⟨h.sound.plus.2.2, Expr.allPassable_star.mpr (Expr.allPassable_plus.mp h.passable)⟩

variable (hd : (Definitions.ofRules rules alphabet).Passable)

include hd

/-- A phrase that does not block the way can be begun. -/
theorem viable_nil {x : Phrase Label RuleIndex} (hgrounded : Grounded rules x [])
    (hx : x.Passable (.ofRules rules alphabet)) : Viable (.ofRules rules alphabet) x [] := by
  obtain ⟨os, hos⟩ : ∃ os, Enumerates (.ofRules rules alphabet) noAnswers x [] os :=
    hgrounded.exists_enumerates (fair_noAnswers _)
  rw [hos.viable_iff]
  obtain ⟨o, ho⟩ := List.exists_mem_of_ne_nil _ (hos.ne_nil hd hx)
  -- The first outcome is a token that is waited for, or the end.
  cases o with
  | report id chain =>
      exact Or.inl (List.ne_nil_of_mem (Outcome.mem_candidates.mpr ⟨id, chain, ho, rfl⟩))
  | done u =>
      obtain rfl := List.suffix_nil.mp (hos.suffix ho)
      exact Or.inr (List.contains_iff_mem.mpr ho)

variable (hwf : WellFormed rules alphabet)

include hwf

/-- The body of a rule is open. -/
theorem open_plain {r : RuleIndex} (hbody : rules[r]?.map Rule.body = some (.plain e)) :
    e.Open rules alphabet :=
  ⟨hwf.sound_plain hbody, hd r _ hbody⟩

/-- So are primaries and operators. -/
theorem open_precedence {r : RuleIndex} {primaries operators : List (Expr Label RuleIndex)}
    (hbody : rules[r]?.map Rule.body = some (.precedence primaries operators)) :
    (Expr.alt primaries).Open rules alphabet ∧ ∀ e ∈ operators, e.Open rules alphabet := by
  obtain ⟨hprimaries, hoperators, -⟩ := hwf.sound_precedence hbody
  obtain ⟨hne, hpassable, hpassable'⟩ := hd r _ hbody
  exact ⟨⟨hprimaries, Expr.allPassable_alt.mpr ⟨hne, hpassable⟩⟩,
    fun e he => ⟨hoperators.of_mem he, hpassable' e he⟩⟩

/-- An open expression can be begun. -/
theorem viable_nil_expr (he : e.Open rules alphabet) :
    Viable (.ofRules rules alphabet) (.expr e) [] :=
  viable_nil hd ((hwf.allGrounded []).expr e he.sound) he.passable

/-- A rule that exists can be begun. -/
theorem viable_nil_rule {r : RuleIndex} {body : Body Label RuleIndex}
    (hbody : rules[r]?.map Rule.body = some body) (level : Int) :
    Viable (.ofRules rules alphabet) (.rule r level) [] := by
  obtain ⟨rule, hrule, -⟩ := Option.map_eq_some_iff.mp hbody
  have hr : r < rules.length := (List.getElem?_eq_some_iff.mp hrule).1
  exact viable_nil hd ((hwf.allGrounded []).rule r level hr) trivial

/-- A derivation that waits for a token can go on when the token is read. The induction is on the
derivation. Where its innermost part is complete with the token, what comes behind it is begun. -/
theorem Awaits.viable {x : Phrase Label RuleIndex} {w : List TokenType} {c : Chain} {t : TokenType}
    (h : Awaits (.ofRules rules alphabet) x w c t) (hx : x.Open rules alphabet) :
    Viable (.ofRules rules alphabet) x (w ++ [t]) := by
  induction h with
  | terminal ht => exact Or.inl (.terminal ht)
  | ref hcallee _ ih =>
      rcases ih trivial with hy | ⟨c, t, ha⟩
      · exact Or.inl (.ref hcallee hy)
      · exact Or.inr ⟨c, t, .ref hcallee ha⟩
  | seqHead _ ih =>
      obtain ⟨hfirst, hrest⟩ := Expr.Open.seqCons hx
      rcases ih hfirst with hy | ⟨c, t, ha⟩
      · -- The first expression is complete, and what comes behind it is begun.
        rw [← List.append_nil (_ ++ _)]
        rcases viable_nil_expr hd hwf hrest with hy' | ⟨c, t, ha⟩
        · exact Or.inl (.seqCons hy hy')
        · exact Or.inr ⟨c, t, .seqTail hy ha⟩
      · exact Or.inr ⟨c, t, .seqHead ha⟩
  | seqTail hfirst _ ih =>
      rw [List.append_assoc]
      rcases ih (Expr.Open.seqCons hx).2 with hy | ⟨c, t, ha⟩
      · exact Or.inl (.seqCons hfirst hy)
      · exact Or.inr ⟨c, t, .seqTail hfirst ha⟩
  | alt hmem _ ih =>
      rcases ih (Expr.Open.of_mem hx hmem) with hy | ⟨c, t, ha⟩
      · exact Or.inl (.alt hmem hy)
      · exact Or.inr ⟨c, t, .alt hmem ha⟩
  | optional _ ih =>
      rcases ih (Expr.Open.optional hx) with hy | ⟨c, t, ha⟩
      · exact Or.inl (.optional hy)
      · exact Or.inr ⟨c, t, .optional ha⟩
  | starHead _ ih =>
      rcases ih (Expr.Open.star hx) with hy | ⟨c, t, ha⟩
      · -- One round is complete, and the repetition can end here.
        rw [← List.append_nil (_ ++ _)]
        exact Or.inl (.starCons hy .starNil)
      · exact Or.inr ⟨c, t, .starHead ha⟩
  | starTail hfirst _ ih =>
      rw [List.append_assoc]
      rcases ih hx with hy | ⟨c, t, ha⟩
      · exact Or.inl (.starCons hfirst hy)
      · exact Or.inr ⟨c, t, .starTail hfirst ha⟩
  | plusHead _ ih =>
      rcases ih (Expr.Open.star (Expr.Open.plus hx)) with hy | ⟨c, t, ha⟩
      · rw [← List.append_nil (_ ++ _)]
        exact Or.inl (.plus hy .starNil)
      · exact Or.inr ⟨c, t, .plusHead ha⟩
  | plusTail hfirst _ ih =>
      rw [List.append_assoc]
      rcases ih (Expr.Open.plus hx) with hy | ⟨c, t, ha⟩
      · exact Or.inl (.plus hfirst hy)
      · exact Or.inr ⟨c, t, .plusTail hfirst ha⟩
  | rule _ ih =>
      rcases ih trivial with hy | ⟨c, t, ha⟩
      · exact Or.inl (.rule hy)
      · exact Or.inr ⟨_, t, .rule ha⟩
  | plain hbody _ ih =>
      rcases ih (open_plain hd hwf hbody) with hy | ⟨c, t, ha⟩
      · exact Or.inl (.plain hbody hy)
      · exact Or.inr ⟨c, t, .plain hbody ha⟩
  | primary hbody _ ih =>
      rcases ih (open_precedence hd hwf hbody).1 with hy | ⟨c, t, ha⟩
      · rw [← List.append_nil (_ ++ _)]
        exact Or.inl (.precedence hbody hy .loopEnd)
      · exact Or.inr ⟨c, t, .primary hbody ha⟩
  | operators hbody hfirst _ ih =>
      rw [List.append_assoc]
      rcases ih trivial with hy | ⟨c, t, ha⟩
      · exact Or.inl (.precedence hbody hfirst hy)
      · exact Or.inr ⟨c, t, .operators hbody hfirst ha⟩
  | @operator r level next k primaries operators e w c t hbody hle he hlevel _ ih =>
      rcases ih ((open_precedence hd hwf hbody).2 e (List.mem_of_getElem? he)) with hy | ⟨c, t, ha⟩
      · -- The operator is complete, and its right operand is begun.
        rw [← List.append_nil (_ ++ _)]
        rcases viable_nil_rule hd hwf hbody (operators.length - k + 1) with hy' | ⟨c, t, ha⟩
        · exact Or.inl (.loopMore hbody hle he hlevel hy hy' .loopEnd)
        · exact Or.inr ⟨c, t, .operand hbody hle he hlevel hy ha⟩
      · exact Or.inr ⟨c, t, .operator hbody hle he hlevel ha⟩
  | operand hbody hle he hlevel hfirst _ ih =>
      rw [List.append_assoc]
      rcases ih trivial with hy | ⟨c, t, ha⟩
      · rw [← List.append_nil (_ ++ [_])]
        exact Or.inl (.loopMore hbody hle he hlevel hfirst hy .loopEnd)
      · exact Or.inr ⟨c, t, .operand hbody hle he hlevel hfirst ha⟩
  | loopMore hbody hle he hlevel hfirst hsecond _ ih =>
      rw [List.append_assoc, List.append_assoc]
      rcases ih trivial with hy | ⟨c, t, ha⟩
      · exact Or.inl (.loopMore hbody hle he hlevel hfirst hsecond hy)
      · exact Or.inr ⟨c, t, .loopMore hbody hle he hlevel hfirst hsecond ha⟩

end

/-! ### Accepted grammars -/

section

variable {τ ρ τ' ρ' : Type} {T : τ → τ' → Prop} {R : ρ → ρ' → Prop} {P : τ → Prop} {P' : τ' → Prop}

/-- What replaces terminals by terminals with the same property blocks no way. -/
theorem Expr.Resolves.allPassable {e : Expr τ ρ} {e' : Expr τ' ρ'} (h : Expr.Resolves T R e e')
    (hT : ∀ t t', T t t' → P t → P' t') (he : e.AllPassable P) : e'.AllPassable P' := by
  intro x' hx'
  obtain ⟨x, hx, hresolves⟩ := h.exists_node x' hx'
  have hpassable := he x hx
  cases hresolves with
  | terminal ht => exact hT _ _ ht hpassable
  | altNil => exact absurd rfl hpassable
  | altCons _ _ => exact List.cons_ne_nil _ _
  | _ => trivial

/-- The same for bodies. -/
theorem Body.Resolves.allPassable {b : Body τ ρ} {b' : Body τ' ρ'} (h : Body.Resolves T R b b')
    (hT : ∀ t t', T t t' → P t → P' t') (hb : b.AllPassable P) : b'.AllPassable P' := by
  cases h with
  | plain he => exact he.allPassable hT hb
  | precedence hprimaries hoperators =>
      obtain ⟨hne, hpassable, hpassable'⟩ := hb
      have halt := hprimaries.allPassable hT (Expr.allPassable_alt.mpr ⟨hne, hpassable⟩)
      obtain ⟨hne', hall⟩ := Expr.allPassable_alt.mp halt
      refine ⟨hne', hall, fun e' he' => ?_⟩
      obtain ⟨k, hk⟩ := List.mem_iff_getElem?.mp he'
      obtain ⟨e, he, hresolves⟩ := hoperators.getElem?.2 k e' hk
      exact hresolves.allPassable hT (hpassable' e (List.mem_of_getElem? he))

end

/-- The terminal matches a token type. A single symbol always does, since it has to be defined. -/
def Numbering.MatchesSome (n : Numbering) : Terminal → Prop
  | .one _ => True
  | .oneOf symbols => symbols ≠ []
  | .noneOf symbols => ∃ t ∈ n.tokenTypes, n.names symbols t = false
  | .any => n.tokenTypes ≠ []

namespace Source

variable {s : Source} {g : Grammar}

/-- Every choice has an alternative, every rule with operators has a primary, and every terminal
matches a token type. -/
def Passable (s : Source) : Prop :=
  ∀ rule ∈ s.rules, rule.body.AllPassable s.numbering.MatchesSome

/-- A terminal that matches some token type has a symbol. -/
theorem symbolsOf_ne_nil {a : Terminal} {l : Label} (hl : s.IsLabel a l)
    (h : s.numbering.MatchesSome a) : s.numbering.symbolsOf a ≠ [] := by
  obtain ⟨rule, hl⟩ := hl
  cases a with
  | one symbol =>
      obtain ⟨t, ht, -⟩ := exists_of_map_ok hl
      simp [Numbering.symbolsOf, typeOf?_of_tokenTypeOf ht]
  | oneOf symbols =>
      cases symbols with
      | nil => exact absurd rfl h
      | cons symbol symbols =>
          obtain ⟨ts, hts, -⟩ := exists_of_map_ok hl
          rw [List.mapM_cons] at hts
          obtain ⟨t, ht, -⟩ := exists_of_bind_ok hts
          have htype := typeOf?_of_tokenTypeOf ht
          -- The first symbol of the set has a type, since all of them could be resolved.
          have hnames : s.numbering.names (symbol :: symbols) t = true := by
            simp [Numbering.names, htype]
          exact List.ne_nil_of_mem
            (List.mem_filter.mpr ⟨Numbering.mem_of_typeOf? htype, hnames⟩)
  | noneOf symbols =>
      obtain ⟨t, ht, hnames⟩ := h
      exact List.ne_nil_of_mem (List.mem_filter.mpr ⟨ht, by simp [hnames]⟩)
  | any => exact h

/-- Resolving names blocks no way. -/
theorem passable_of_build (h : s.build = .ok g) (hsize : s.numbering.size < 2 ^ 31 - 2)
    (hs : s.Passable) : (Definitions.ofRules g.rules s.tokenUniverse).Passable := by
  intro r body' hbody'
  have hresolves := resolves_of_build h hsize
  obtain ⟨body, hbody, hparts⟩ := hresolves.body r body' hbody'
  obtain ⟨rule, hrule, rfl⟩ := Option.map_eq_some_iff.mp hbody
  refine hparts.allPassable ?_ (hs rule (List.mem_of_getElem? hrule))
  intro a l hl hmatches
  rw [hresolves.symbols_eq a l hl]
  exact symbolsOf_ne_nil hl hmatches

/-- In an accepted grammar a derivation that waits for a token can go on when the token is read. -/
theorem viable_of_awaits (h : s.build = .ok g) (hsize : s.numbering.size < 2 ^ 31 - 2)
    (hs : s.Passable) {r : RuleIndex} {w : List TokenType} {c : Chain} {t : TokenType}
    (hawaits : Awaits s.definitions (.rule r 0) w c t) :
    Viable s.definitions (.rule r 0) (w ++ [t]) := by
  have hwf := wellFormed_of_build h hsize
  have hr : r < g.rules.length := by
    rw [length_rules h]
    by_contra hge
    exact not_awaits_of_length_le (Nat.not_lt.mp hge) hawaits
  have hviable := (awaits_resolved h hsize hr hawaits).viable (passable_of_build h hsize hs) hwf
    trivial
  -- Searches have the same outcomes with names and with numbers, so what is viable carries over.
  obtain ⟨os, hos⟩ := hwf.exists_enumerates_rule (fair_noAnswers _) hr 0 (w ++ [t])
  have hwritten := hos.of_resolved (resolves_of_build h hsize) .rule
  exact hwritten.viable_iff.mpr (hos.viable_iff.mp hviable)

/-- What a traversal of an accepted grammar finds, as derivations. -/
theorem exists_traversal (h : s.build = .ok g) (hsize : s.numbering.size < 2 ^ 31 - 2)
    (r : RuleIndex) (w : List TokenType) : ∃ T,
      Ends (fun limit => traverse g.recognizer.network ⟨w.toArray⟩ .none limit r) T ∧
      (∀ t, (∃ c ∈ T.found, c.id = .token t) ↔ ∃ c, Awaits s.definitions (.rule r 0) w c t) ∧
      (T.found ≠ [] ∨ T.reachedEnd = true ↔ Viable s.definitions (.rule r 0) w) := by
  rcases Nat.lt_or_ge r s.rules.length with hr | hr
  · obtain ⟨os, hos, hends⟩ := traverse_ends h hsize hr w
    refine ⟨.ofOutcomes os, hends, fun t => ⟨?_, ?_⟩, hos.viable_iff.symm⟩
    · rintro ⟨c, hc, hid⟩
      obtain ⟨t', chain, rfl, hawaits⟩ := (hos.mem_candidates_iff c).mp hc
      cases hid
      exact ⟨chain, hawaits⟩
    · rintro ⟨chain, hawaits⟩
      exact ⟨_, (hos.mem_candidates_iff _).mpr ⟨t, chain, rfl, hawaits⟩, rfl⟩
  · -- Nothing is found in a rule that does not exist, and nothing is derived from it.
    have hnot : ∀ c t, ¬ Awaits s.definitions (.rule r 0) w c t :=
      fun _ _ => not_awaits_of_length_le hr
    refine ⟨.empty, traverse_ends_of_length_le h hsize hr _ _, fun t => ?_, ?_⟩
    · simp [Traversal.empty, hnot]
    · simp [Traversal.empty, Viable, hnot, not_yields_of_length_le hr]

end Source

/-- In a grammar where every choice has an alternative, every rule with operators a primary and
every terminal a token type, a token type is suggested exactly if the traversal of the tokens with
it behind them finds something or reaches the end. If that is so of longer tokens, then each of them
is suggested behind those in front of it. -/
theorem suggestions_are_viable {s : Source} {g : Grammar} (h : s.build = .ok g)
    (hsize : s.numbering.size < 2 ^ 31 - 2) (hs : s.Passable) (r : RuleIndex) :
    ∃ T : List TokenType → Traversal,
      (∀ w, Ends (fun limit => traverse g.recognizer.network ⟨w.toArray⟩ .none limit r) (T w)) ∧
      ∀ w t, ((∃ c ∈ (T w).found, c.id = .token t) ↔
          (T (w ++ [t])).found ≠ [] ∨ (T (w ++ [t])).reachedEnd = true) ∧
        ∀ v, (T (w ++ [t] ++ v)).found ≠ [] ∨ (T (w ++ [t] ++ v)).reachedEnd = true →
          ∃ c ∈ (T w).found, c.id = .token t := by
  choose T hends hsuggests hviable using Source.exists_traversal h hsize r
  refine ⟨T, hends, fun w t => ?_⟩
  -- A traversal that comes to something behind `t` has waited for `t`.
  have hback : ∀ v, (T (w ++ [t] ++ v)).found ≠ [] ∨ (T (w ++ [t] ++ v)).reachedEnd = true →
      ∃ c ∈ (T w).found, c.id = .token t := by
    intro v hv
    have hlonger := (hviable _).mp hv
    rw [List.append_assoc] at hlonger
    exact (hsuggests w t).mpr hlonger.awaits
  refine ⟨⟨fun hfound => ?_, fun hsome => ?_⟩, hback⟩
  · obtain ⟨c, hawaits⟩ := (hsuggests w t).mp hfound
    exact (hviable _).mpr (Source.viable_of_awaits h hsize hs hawaits)
  · refine hback [] ?_
    rw [List.append_nil]
    exact hsome

/-- Nothing blocks the way in the grammar of lists. -/
theorem passable_productGrammar : productGrammar.Passable := by
  intro rule hrule
  simp only [productGrammar, List.mem_cons, List.not_mem_nil, or_false] at hrule
  rcases hrule with rfl | rfl <;>
    simp [Body.AllPassable, Expr.AllPassable, Expr.nodes, Expr.nodesOfList, Expr.Passable,
      Numbering.MatchesSome]

/-- Of a list that begins with `x *`, and of one that begins with `x * ( x`. The parenthesis is
suggested behind the product sign. -/
theorem product_suggestions_are_viable : ∃ g, productGrammar.build = .ok g ∧
    productGrammar.numbering.size < 2 ^ 31 - 2 ∧ productGrammar.Passable ∧
    ∃ T : List TokenType → Traversal,
      (∀ w, Ends (fun limit => traverse g.recognizer.network ⟨w.toArray⟩ .none limit 0) (T w)) ∧
      ((∃ c ∈ (T [2, 5]).found, c.id = .token 3) ↔
        (T [2, 5, 3]).found ≠ [] ∨ (T [2, 5, 3]).reachedEnd = true) ∧
      ((T [2, 5, 3, 2]).found ≠ [] ∨ (T [2, 5, 3, 2]).reachedEnd = true →
        ∃ c ∈ (T [2, 5]).found, c.id = .token 3) := by
  obtain ⟨g, hg⟩ := exists_build_productGrammar
  obtain ⟨T, hends, hT⟩ :=
    suggestions_are_viable hg size_numbering_productGrammar passable_productGrammar 0
  exact ⟨g, hg, size_numbering_productGrammar, passable_productGrammar, T, hends,
    (hT [2, 5] 3).1, (hT [2, 5] 3).2 [2]⟩

end Caret
