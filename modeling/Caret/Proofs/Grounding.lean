import Mathlib
import Caret.Proofs.Acceptance

/-!
# `Caret.Proofs.Grounding`: searches come to an end

`Grounded rules x v` is evidence that a search through the phrase `x` in front of the tokens `v`
comes to an end. What follows a part of the phrase is needed in front of the same tokens only if the
part is nullable. Otherwise a token is read first, and it is needed in front of fewer tokens.

`WellFormed.allGrounded` finds the evidence for every phrase of a well-formed grammar. The induction
is on the number of tokens, then along the calls before the first token, which come to an end, and
then on the structure of expressions. Everything that is shown to end, in whatever way a grammar is
walked through, is shown by induction on the evidence. The first use is
`Grounded.exists_enumerates`: a search has a list of outcomes.
-/

set_option autoImplicit false

namespace Caret

/-- There are fewer tokens left, after some more were read. -/
def Later (u v : List TokenType) : Prop := u <:+ v ∧ u ≠ v

/-- There are fewer tokens later on. -/
theorem Later.length_lt {u v : List TokenType} (h : Later u v) : u.length < v.length := by
  have hle := h.1.length_le
  have hne : u.length ≠ v.length := fun heq => h.2 (h.1.eq_of_length heq)
  omega

/-- Later still, after no or some more tokens. -/
theorem Later.of_suffix {u v w : List TokenType} (h : Later v w) (h' : u <:+ v) : Later u w := by
  refine ⟨h'.trans h.1, ?_⟩
  rintro rfl
  have hlt := h.length_lt
  have hle := h'.length_le
  omega

/-- Either nothing was read or it is later. -/
theorem eq_or_later {u v : List TokenType} (h : u <:+ v) : u = v ∨ Later u v := by
  by_cases heq : u = v
  · exact Or.inl heq
  · exact Or.inr ⟨h, heq⟩

/-! ### Parts of expressions -/

section

variable {τ ρ : Type} (known : ρ → Bool)

/-- A sequence repeats something nullable if one of its parts does. -/
theorem repeatsNullable_seqCons (e : Expr τ ρ) (es : List (Expr τ ρ)) :
    (Expr.seq (e :: es)).repeatsNullable known =
      (e.repeatsNullable known || (Expr.seq es).repeatsNullable known) := by
  simp [Expr.repeatsNullable, Expr.nodes, Expr.nodesOfList]

/-- So does a choice. -/
theorem repeatsNullable_altCons (e : Expr τ ρ) (es : List (Expr τ ρ)) :
    (Expr.alt (e :: es)).repeatsNullable known =
      (e.repeatsNullable known || (Expr.alt es).repeatsNullable known) := by
  simp [Expr.repeatsNullable, Expr.nodes, Expr.nodesOfList]

/-- An optional part is not repeated itself. -/
theorem repeatsNullable_optional (e : Expr τ ρ) (greedy : Bool) :
    (Expr.optional e greedy).repeatsNullable known = e.repeatsNullable known := by
  simp [Expr.repeatsNullable, Expr.nodes]

/-- What is repeated may be nullable itself, or repeat something nullable. -/
theorem repeatsNullable_star (e : Expr τ ρ) (greedy : Bool) :
    (Expr.star e greedy).repeatsNullable known =
      (e.nullable known || e.repeatsNullable known) := by
  simp [Expr.repeatsNullable, Expr.nodes]

/-- The same for what comes at least once. -/
theorem repeatsNullable_plus (e : Expr τ ρ) (greedy : Bool) :
    (Expr.plus e greedy).repeatsNullable known =
      (e.nullable known || e.repeatsNullable known) := by
  simp [Expr.repeatsNullable, Expr.nodes]

end

/-- An expression of a well-formed grammar: its references are in range, and it repeats nothing that
is nullable. -/
structure Expr.Sound (rules : List (Rule Label RuleIndex)) (alphabet : Universe)
    (e : Expr Label RuleIndex) : Prop where
  fits : e.Fits (Label.Proper alphabet) (· < rules.length)
  loops : e.repeatsNullable (knownNullable rules) = false

section

variable {rules : List (Rule Label RuleIndex)} {alphabet : Universe} {e : Expr Label RuleIndex}
  {es : List (Expr Label RuleIndex)} {greedy : Bool}

/-- The parts of a sound sequence are sound. -/
theorem Expr.Sound.seqCons (h : (Expr.seq (e :: es)).Sound rules alphabet) :
    e.Sound rules alphabet ∧ (Expr.seq es).Sound rules alphabet := by
  obtain ⟨⟨hhead, htail⟩, hloops⟩ := h
  rw [repeatsNullable_seqCons, Bool.or_eq_false_iff] at hloops
  exact ⟨⟨hhead, hloops.1⟩, ⟨htail, hloops.2⟩⟩

/-- The alternatives of a sound choice are sound. -/
theorem Expr.Sound.altCons (h : (Expr.alt (e :: es)).Sound rules alphabet) :
    e.Sound rules alphabet ∧ (Expr.alt es).Sound rules alphabet := by
  obtain ⟨⟨hhead, htail⟩, hloops⟩ := h
  rw [repeatsNullable_altCons, Bool.or_eq_false_iff] at hloops
  exact ⟨⟨hhead, hloops.1⟩, ⟨htail, hloops.2⟩⟩

/-- Any alternative, not only the first one. -/
theorem Expr.Sound.of_mem (h : (Expr.alt es).Sound rules alphabet) (he : e ∈ es) :
    e.Sound rules alphabet := by
  induction es with
  | nil => cases he
  | cons first rest ih =>
      obtain ⟨hfirst, hrest⟩ := h.altCons
      rcases List.mem_cons.mp he with rfl | he
      · exact hfirst
      · exact ih hrest he

/-- An optional part of a sound expression is sound. -/
theorem Expr.Sound.optional (h : (Expr.optional e greedy).Sound rules alphabet) :
    e.Sound rules alphabet :=
  ⟨h.fits, by rw [← h.loops, repeatsNullable_optional]⟩

/-- What is repeated is not nullable. -/
theorem Expr.Sound.star (h : (Expr.star e greedy).Sound rules alphabet) :
    e.nullable (knownNullable rules) = false ∧ e.Sound rules alphabet := by
  have hloops := h.loops
  rw [repeatsNullable_star, Bool.or_eq_false_iff] at hloops
  exact ⟨hloops.1, h.fits, hloops.2⟩

/-- The same for what comes at least once. Behind the first time it is a sound repetition. -/
theorem Expr.Sound.plus (h : (Expr.plus e greedy).Sound rules alphabet) :
    e.nullable (knownNullable rules) = false ∧ e.Sound rules alphabet ∧
      (Expr.star e greedy).Sound rules alphabet := by
  have hloops := h.loops
  rw [repeatsNullable_plus] at hloops
  have hstar : (Expr.star e greedy).Sound rules alphabet :=
    ⟨h.fits, by rw [repeatsNullable_star, hloops]⟩
  exact ⟨hstar.star.1, hstar.star.2, hstar⟩

end

section

variable (known : RuleIndex → Bool) {P : Label → Prop} {Q : RuleIndex → Prop}

mutual

/-- The rules that are called first are among the references. -/
theorem Expr.fits_of_mem_leftCalls : ∀ {e : Expr Label RuleIndex}, e.Fits P Q →
      ∀ r ∈ e.leftCalls known, Q r
  | .terminal _, _, r, hr => by
      rw [leftCalls] at hr
      cases hr
  | .rule callee, hfits, r, hr => by
      rw [leftCalls, List.mem_singleton] at hr
      rw [hr]
      exact hfits
  | .empty, _, r, hr => by
      rw [leftCalls] at hr
      cases hr
  | .seq es, hfits, r, hr => by
      rw [leftCalls] at hr
      exact (Expr.fits_of_mem_leftCallsOfList hfits).1 r hr
  | .alt es, hfits, r, hr => by
      rw [leftCalls] at hr
      exact (Expr.fits_of_mem_leftCallsOfList hfits).2 r hr
  | .optional body _, hfits, r, hr => by
      rw [leftCalls] at hr
      rw [Fits] at hfits
      exact Expr.fits_of_mem_leftCalls hfits r hr
  | .star body _, hfits, r, hr => by
      rw [leftCalls] at hr
      rw [Fits] at hfits
      exact Expr.fits_of_mem_leftCalls hfits r hr
  | .plus body _, hfits, r, hr => by
      rw [leftCalls] at hr
      rw [Fits] at hfits
      exact Expr.fits_of_mem_leftCalls hfits r hr

/-- The same for expressions in a sequence and for those in a choice. -/
theorem Expr.fits_of_mem_leftCallsOfList : ∀ {es : List (Expr Label RuleIndex)},
    Expr.AllFit P Q es → (∀ r ∈ Expr.leftCallsOfSeq known es, Q r) ∧
      ∀ r ∈ Expr.leftCallsOfAlt known es, Q r
  | [], _ => by simp [leftCallsOfSeq, leftCallsOfAlt]
  | e :: es, hfits => by
      rw [AllFit] at hfits
      have hhead := Expr.fits_of_mem_leftCalls hfits.1
      obtain ⟨hseq, halt⟩ := Expr.fits_of_mem_leftCallsOfList hfits.2
      constructor
      · intro r hr
        rw [leftCallsOfSeq, List.mem_append] at hr
        rcases hr with hr | hr
        · exact hhead r hr
        · -- Later parts count only behind a nullable one.
          split at hr
          · exact hseq r hr
          · cases hr
      · intro r hr
        rw [leftCallsOfAlt, List.mem_append] at hr
        rcases hr with hr | hr
        · exact hhead r hr
        · exact halt r hr

end

end

/-! ### Evidence -/

/-- A search through the phrase in front of the tokens comes to an end. -/
inductive Grounded (rules : List (Rule Label RuleIndex)) :
    Phrase Label RuleIndex → List TokenType → Prop where
  | terminal {l : Label} {v : List TokenType} : Grounded rules (.expr (.terminal l)) v
  | ref {r : RuleIndex} {v : List TokenType} :
      Grounded rules (.rule r 0) v → Grounded rules (.expr (.rule r)) v
  | empty {v : List TokenType} : Grounded rules (.expr .empty) v
  | seqNil {v : List TokenType} : Grounded rules (.expr (.seq [])) v
  | seqCons {e : Expr Label RuleIndex} {es : List (Expr Label RuleIndex)} {v : List TokenType} :
      Grounded rules (.expr e) v →
        (e.nullable (knownNullable rules) = true → Grounded rules (.expr (.seq es)) v) →
        (∀ u, Later u v → Grounded rules (.expr (.seq es)) u) →
          Grounded rules (.expr (.seq (e :: es))) v
  | altNil {v : List TokenType} : Grounded rules (.expr (.alt [])) v
  | altCons {e : Expr Label RuleIndex} {es : List (Expr Label RuleIndex)} {v : List TokenType} :
      Grounded rules (.expr e) v → Grounded rules (.expr (.alt es)) v →
        Grounded rules (.expr (.alt (e :: es))) v
  | optional {e : Expr Label RuleIndex} {greedy : Bool} {v : List TokenType} :
      Grounded rules (.expr e) v → Grounded rules (.expr (.optional e greedy)) v
  | star {e : Expr Label RuleIndex} {greedy : Bool} {v : List TokenType} :
      e.nullable (knownNullable rules) = false → Grounded rules (.expr e) v →
        (∀ u, Later u v → Grounded rules (.expr (.star e greedy)) u) →
          Grounded rules (.expr (.star e greedy)) v
  | plus {e : Expr Label RuleIndex} {greedy : Bool} {v : List TokenType} :
      e.nullable (knownNullable rules) = false → Grounded rules (.expr e) v →
        (∀ u, Later u v → Grounded rules (.expr (.star e greedy)) u) →
          Grounded rules (.expr (.plus e greedy)) v
  /-- Behind a token that is found later on, any rule may be entered. -/
  | rule {r : RuleIndex} {level : Int} {v : List TokenType} :
      Grounded rules (.body r level) v →
        (∀ u r' level', Later u v → r' < rules.length → Grounded rules (.rule r' level') u) →
          Grounded rules (.rule r level) v
  | plain {r : RuleIndex} {level : Int} {e : Expr Label RuleIndex} {v : List TokenType} :
      rules[r]?.map Rule.body = some (.plain e) → Grounded rules (.expr e) v →
        Grounded rules (.body r level) v
  | precedence {r : RuleIndex} {level : Int} {primaries operators : List (Expr Label RuleIndex)}
      {v : List TokenType} :
      rules[r]?.map Rule.body = some (.precedence primaries operators) →
        Grounded rules (.expr (.alt primaries)) v →
        (Expr.anyNullable (knownNullable rules) primaries = true →
          Grounded rules (.loop r level 0) v) →
        (∀ u, Later u v → Grounded rules (.loop r level 0) u) → Grounded rules (.body r level) v
  | loop {r : RuleIndex} {level : Int} {next : Nat}
      {primaries operators : List (Expr Label RuleIndex)} {v : List TokenType} :
      rules[r]?.map Rule.body = some (.precedence primaries operators) →
        (∀ e ∈ operators, e.nullable (knownNullable rules) = false) →
        (∀ e ∈ operators, Grounded rules (.expr e) v) →
        (∀ u level', Later u v → Grounded rules (.rule r level') u) →
        (∀ u, Later u v → Grounded rules (.loop r level 0) u) →
          Grounded rules (.loop r level next) v

section

variable {rules : List (Rule Label RuleIndex)} {alphabet : Universe} {v : List TokenType}

mutual

/-- An expression is grounded if the rules that it can call first are, and if everything is grounded
in front of fewer tokens. -/
theorem grounded_expr (hlater : ∀ u, Later u v → ∀ e : Expr Label RuleIndex,
    e.Sound rules alphabet → Grounded rules (.expr e) u) :
    ∀ {e : Expr Label RuleIndex}, e.Sound rules alphabet →
      (∀ r ∈ e.leftCalls (knownNullable rules), Grounded rules (.rule r 0) v) →
        Grounded rules (.expr e) v
  | .terminal l, _, _ => .terminal
  | .rule r, _, hcalls => .ref (hcalls r (by simp [Expr.leftCalls]))
  | .empty, _, _ => .empty
  | .seq es, hsound, hcalls => by
      rw [Expr.leftCalls] at hcalls
      exact grounded_seq hlater hsound hcalls
  | .alt es, hsound, hcalls => by
      rw [Expr.leftCalls] at hcalls
      exact grounded_alt hlater hsound hcalls
  | .optional e greedy, hsound, hcalls => by
      rw [Expr.leftCalls] at hcalls
      exact .optional (grounded_expr hlater hsound.optional hcalls)
  | .star e greedy, hsound, hcalls => by
      rw [Expr.leftCalls] at hcalls
      exact .star hsound.star.1 (grounded_expr hlater hsound.star.2 hcalls) fun u hu =>
        hlater u hu _ hsound
  | .plus e greedy, hsound, hcalls => by
      rw [Expr.leftCalls] at hcalls
      exact .plus hsound.plus.1 (grounded_expr hlater hsound.plus.2.1 hcalls) fun u hu =>
        hlater u hu _ hsound.plus.2.2

/-- The same for sequences. What comes behind the first part is entered in front of the same tokens
only if that part is nullable, and then its first calls count. -/
theorem grounded_seq (hlater : ∀ u, Later u v → ∀ e : Expr Label RuleIndex,
    e.Sound rules alphabet → Grounded rules (.expr e) u) :
    ∀ {es : List (Expr Label RuleIndex)}, (Expr.seq es).Sound rules alphabet →
      (∀ r ∈ Expr.leftCallsOfSeq (knownNullable rules) es, Grounded rules (.rule r 0) v) →
        Grounded rules (.expr (.seq es)) v
  | [], _, _ => .seqNil
  | e :: es, hsound, hcalls => by
      obtain ⟨hhead, htail⟩ := hsound.seqCons
      rw [Expr.leftCallsOfSeq] at hcalls
      have hfirst := grounded_expr hlater hhead fun r hr => hcalls r (List.mem_append_left _ hr)
      refine .seqCons hfirst ?_ fun u hu => hlater u hu _ htail
      intro hnullable
      rw [if_pos hnullable] at hcalls
      exact grounded_seq hlater htail fun r hr => hcalls r (List.mem_append_right _ hr)

/-- The same for choices. Each alternative is entered in front of the same tokens. -/
theorem grounded_alt (hlater : ∀ u, Later u v → ∀ e : Expr Label RuleIndex,
    e.Sound rules alphabet → Grounded rules (.expr e) u) :
    ∀ {es : List (Expr Label RuleIndex)}, (Expr.alt es).Sound rules alphabet →
      (∀ r ∈ Expr.leftCallsOfAlt (knownNullable rules) es, Grounded rules (.rule r 0) v) →
        Grounded rules (.expr (.alt es)) v
  | [], _, _ => .altNil
  | e :: es, hsound, hcalls => by
      obtain ⟨hhead, htail⟩ := hsound.altCons
      rw [Expr.leftCallsOfAlt] at hcalls
      exact .altCons
        (grounded_expr hlater hhead fun r hr => hcalls r (List.mem_append_left _ hr))
        (grounded_alt hlater htail fun r hr => hcalls r (List.mem_append_right _ hr))

end

end

/-- The alternatives of a grounded choice are grounded. -/
theorem Grounded.of_mem {rules : List (Rule Label RuleIndex)} {v : List TokenType}
    {e : Expr Label RuleIndex} {es : List (Expr Label RuleIndex)}
    (h : Grounded rules (.expr (.alt es)) v) (he : e ∈ es) : Grounded rules (.expr e) v := by
  induction es with
  | nil => cases he
  | cons first rest ih =>
      cases h with
      | altCons hfirst hrest =>
          rcases List.mem_cons.mp he with rfl | he
          · exact hfirst
          · exact ih hrest he

/-! ### Well-formed grammars -/

/-- A choice repeats something nullable if one of its alternatives does. -/
theorem repeatsNullable_alt {τ ρ : Type} (known : ρ → Bool) (es : List (Expr τ ρ)) :
    (Expr.alt es).repeatsNullable known = es.any (·.repeatsNullable known) := by
  induction es with
  | nil => simp [Expr.repeatsNullable, Expr.nodes, Expr.nodesOfList]
  | cons e es ih => rw [repeatsNullable_altCons, ih, List.any_cons]

/-- A choice is nullable if one of its alternatives is. -/
theorem anyNullable_eq_any {τ ρ : Type} (known : ρ → Bool) (es : List (Expr τ ρ)) :
    Expr.anyNullable known es = es.any (·.nullable known) := by
  induction es with
  | nil => rfl
  | cons e es ih => rw [Expr.anyNullable, ih, List.any_cons]

/-- Everything in a grammar is grounded in front of these tokens. -/
structure AllGrounded (rules : List (Rule Label RuleIndex)) (alphabet : Universe)
    (v : List TokenType) : Prop where
  expr : ∀ e : Expr Label RuleIndex, e.Sound rules alphabet → Grounded rules (.expr e) v
  rule : ∀ r level, r < rules.length → Grounded rules (.rule r level) v
  loop : ∀ r level next primaries operators,
    rules[r]?.map Rule.body = some (.precedence primaries operators) →
      Grounded rules (.loop r level next) v

namespace WellFormed

variable {rules : List (Rule Label RuleIndex)} {alphabet : Universe} {v : List TokenType}

/-- The body of a rule in a well-formed grammar is sound. -/
theorem sound_plain (h : WellFormed rules alphabet) {r : RuleIndex} {e : Expr Label RuleIndex}
    (hbody : rules[r]?.map Rule.body = some (.plain e)) : e.Sound rules alphabet := by
  obtain ⟨rule, hrule, hbody⟩ := Option.map_eq_some_iff.mp hbody
  have hfits := h.fits rule (List.mem_of_getElem? hrule)
  have hloops := h.loops rule (List.mem_of_getElem? hrule)
  rw [hbody] at hfits hloops
  refine ⟨hfits, ?_⟩
  simpa [Body.repeatsNullable, Body.exprs] using hloops

/-- So are the primaries and the operators of a rule, and no operator is nullable: operators are
repeated. -/
theorem sound_precedence (h : WellFormed rules alphabet) {r : RuleIndex}
    {primaries operators : List (Expr Label RuleIndex)}
    (hbody : rules[r]?.map Rule.body = some (.precedence primaries operators)) :
    (Expr.alt primaries).Sound rules alphabet ∧ (Expr.alt operators).Sound rules alphabet ∧
      ∀ e ∈ operators, e.nullable (knownNullable rules) = false := by
  obtain ⟨rule, hrule, hbody⟩ := Option.map_eq_some_iff.mp hbody
  have hfits := h.fits rule (List.mem_of_getElem? hrule)
  have hloops := h.loops rule (List.mem_of_getElem? hrule)
  rw [hbody] at hfits hloops
  rw [Body.repeatsNullable, Body.exprs, List.any_append, Bool.or_eq_false_iff,
    Bool.or_eq_false_iff, anyNullable_eq_any] at hloops
  obtain ⟨⟨hprimaries, hoperators⟩, hnullable⟩ := hloops
  refine ⟨⟨hfits.1, ?_⟩, ⟨hfits.2, ?_⟩, ?_⟩
  · rw [repeatsNullable_alt, hprimaries]
  · rw [repeatsNullable_alt, hoperators]
  · intro e he
    rw [← Bool.not_eq_true]
    intro htrue
    rw [List.any_eq_true.mpr ⟨e, he, htrue⟩] at hnullable
    cases hnullable

/-- Operators are grounded if each of them is, and everything in front of fewer tokens. -/
theorem grounded_loop (h : WellFormed rules alphabet)
    (hlater : ∀ u, Later u v → AllGrounded rules alphabet u) {r : RuleIndex} {level : Int}
    {next : Nat} {primaries operators : List (Expr Label RuleIndex)}
    (hbody : rules[r]?.map Rule.body = some (.precedence primaries operators))
    (hoperators : Grounded rules (.expr (.alt operators)) v) :
    Grounded rules (.loop r level next) v := by
  obtain ⟨rule, hrule, -⟩ := Option.map_eq_some_iff.mp hbody
  have hr : r < rules.length := (List.getElem?_eq_some_iff.mp hrule).1
  refine .loop hbody (h.sound_precedence hbody).2.2 (fun e he => hoperators.of_mem he) ?_ ?_
  · intro u level' hu
    exact (hlater u hu).rule r level' hr
  · intro u hu
    exact (hlater u hu).loop r level 0 _ _ hbody

/-- A rule is grounded in front of the tokens if everything is grounded in front of fewer tokens.
The induction is along the calls before the first token. -/
theorem grounded_rule (h : WellFormed rules alphabet)
    (hlater : ∀ u, Later u v → AllGrounded rules alphabet u) :
    ∀ r level, r < rules.length → Grounded rules (.rule r level) v := by
  intro r
  -- Calls before the first token come to an end, since a well-formed grammar has no left recursion.
  induction h.settled r with
  | intro r _ ih =>
      intro level hr
      obtain ⟨rule, hrule⟩ : ∃ rule, rules[r]? = some rule := ⟨_, List.getElem?_eq_getElem hr⟩
      have hexpr := fun u hu e he => (hlater u hu).expr e he
      refine .rule ?_ fun u r' level' hu hr' => (hlater u hu).rule r' level' hr'
      -- Calls of the body before its first token are grounded by induction.
      have hcalls : ∀ c ∈ rule.body.leftCalls (knownNullable rules), c < rules.length →
          Grounded rules (.rule c 0) v := by
        intro c hc hlt
        refine ih c ?_ 0 hlt
        rw [leftCallsOf, hrule]
        exact hc
      cases hbody : rule.body with
      | plain e =>
          have hmap : rules[r]?.map Rule.body = some (.plain e) := by rw [hrule, ← hbody]; rfl
          rw [hbody, Body.leftCalls] at hcalls
          have hsound := h.sound_plain hmap
          exact .plain hmap (grounded_expr hexpr hsound fun c hc =>
            hcalls c hc (Expr.fits_of_mem_leftCalls _ hsound.fits c hc))
      | precedence primaries operators =>
          have hmap : rules[r]?.map Rule.body = some (.precedence primaries operators) := by
            rw [hrule, ← hbody]; rfl
          rw [hbody, Body.leftCalls] at hcalls
          obtain ⟨hprimaries, hoperators, hnullable⟩ := h.sound_precedence hmap
          refine .precedence hmap ?_ ?_ fun u hu => (hlater u hu).loop r level 0 _ _ hmap
          · refine grounded_alt hexpr hprimaries fun c hc => ?_
            exact hcalls c (List.mem_append_left _ hc)
              ((Expr.fits_of_mem_leftCallsOfList _ hprimaries.fits).2 c hc)
          · -- Operators can come first only behind a primary that reads nothing.
            intro hany
            rw [if_pos hany] at hcalls
            refine h.grounded_loop hlater hmap (grounded_alt hexpr hoperators fun c hc => ?_)
            exact hcalls c (List.mem_append_right _ hc)
              ((Expr.fits_of_mem_leftCallsOfList _ hoperators.fits).2 c hc)

/-- In front of any tokens everything is grounded. The induction is on the number of tokens. -/
theorem allGrounded (h : WellFormed rules alphabet) (v : List TokenType) :
    AllGrounded rules alphabet v := by
  induction hlength : v.length using Nat.strong_induction_on generalizing v with
  | _ n ih =>
      -- What is later has fewer tokens, so the induction applies to everything at once.
      have hlater : ∀ u, Later u v → AllGrounded rules alphabet u := by
        intro u hu
        exact ih u.length (hlength ▸ hu.length_lt) u rfl
      have hrule := h.grounded_rule hlater
      have hexpr : ∀ e : Expr Label RuleIndex, e.Sound rules alphabet →
          Grounded rules (.expr e) v := by
        intro e hsound
        refine grounded_expr (fun u hu e he => (hlater u hu).expr e he) hsound fun r hr => ?_
        exact hrule r 0 (Expr.fits_of_mem_leftCalls _ hsound.fits r hr)
      refine ⟨hexpr, hrule, ?_⟩
      intro r level next primaries operators hbody
      exact h.grounded_loop hlater hbody (hexpr _ (h.sound_precedence hbody).2.1)

end WellFormed

/-! ### Searches -/

/-- Whether the phrase can be read without reading a token. A choice needs an alternative. -/
def Phrase.nullable (known : RuleIndex → Bool) : Phrase Label RuleIndex → Bool
  | .expr (.alt es) => Expr.anyNullable known es
  | .expr e => e.nullable known
  | .rule r _ => known r
  | .body r _ => known r
  | .loop _ _ _ => true

/-- An expression that can be read without a token counts as nullable. The empty choice counts as
nullable although it cannot be read. -/
theorem Expr.nullable_of_phrase {known : RuleIndex → Bool} {e : Expr Label RuleIndex}
    (h : (Phrase.expr e).nullable known = true) : e.nullable known = true := by
  cases e with
  | alt es =>
      cases es with
      | nil => rfl
      | cons e es =>
          rw [Expr.nullable]
          exact h
  | _ => exact h

/-- The answers to calls let a rule be passed only if it is nullable. -/
def Answers.Fair (answers : Answers) (known : RuleIndex → Bool) : Prop :=
  ∀ v r a, answers v r = some a → a.passes = true → known r = true

/-- Where no call is answered, no answer is wrong. -/
theorem fair_noAnswers (known : RuleIndex → Bool) : noAnswers.Fair known := by
  intro v r a h
  cases h

section

open Outcome

variable {rules : List (Rule Label RuleIndex)} {alphabet : Universe} {answers : Answers}
  {x : Phrase Label RuleIndex} {v : List TokenType} {os : List Outcome}

/-- A rule with a nullable body is marked as nullable. -/
theorem knownNullable_of_body {r : RuleIndex} {body : Body Label RuleIndex}
    (hbody : rules[r]?.map Rule.body = some body)
    (hnullable : body.nullable (knownNullable rules) = true) : knownNullable rules r = true := by
  obtain ⟨rule, hrule, rfl⟩ := Option.map_eq_some_iff.mp hbody
  exact marked_nullableRules hrule hnullable

/-- Two phrases that read nothing together read nothing each, since the tokens that are left shrink
from one to the other. -/
theorem Enumerates.done_of_andThen {d : Definitions Label RuleIndex}
    {y : Phrase Label RuleIndex} {f : List TokenType → List Outcome}
    (h : Enumerates d answers x v os)
    (h' : ∀ u, .done u ∈ os → Enumerates d answers y u (f u)) (hdone : .done v ∈ andThen os f) :
    .done v ∈ os ∧ .done v ∈ f v := by
  obtain ⟨u, hu, hv⟩ := done_mem_andThen.mp hdone
  obtain rfl := (h.suffix hu).eq_of_length_le ((h' u hu).suffix hv).length_le
  exact ⟨hu, hv⟩

/-- A phrase that was read without reading a token is nullable. -/
theorem Enumerates.nullable_of_done (hfair : answers.Fair (knownNullable rules))
    (h : Enumerates (.ofRules rules alphabet) answers x v os) (hdone : .done v ∈ os) :
    x.nullable (knownNullable rules) = true := by
  induction h with
  | @terminal l v =>
      cases v with
      | nil => simp [ofSymbols] at hdone
      | cons t v =>
          rw [ofSymbols] at hdone
          split at hdone
          · simp at hdone
          · cases hdone
  | ref hcallee _ ih =>
      cases hcallee
      exact ih hdone
  | empty => rfl
  | seqNil => rfl
  | @seqCons e es v os f hfirst hrest ih ih' =>
      obtain ⟨hu, hv⟩ := hfirst.done_of_andThen hrest hdone
      have hhead := Expr.nullable_of_phrase (ih hu)
      have htail := Expr.nullable_of_phrase (ih' v hu hv)
      show (Expr.seq (e :: es)).nullable _ = true
      rw [Expr.nullable] at htail ⊢
      rw [Expr.allNullable, hhead, htail]
      rfl
  | altNil => cases hdone
  | @altCons e es v os os' _ _ ih ih' =>
      show Expr.anyNullable _ (e :: es) = true
      rw [Expr.anyNullable, Bool.or_eq_true]
      rcases List.mem_append.mp hdone with hdone | hdone
      · exact Or.inl (Expr.nullable_of_phrase (ih hdone))
      · exact Or.inr (ih' hdone)
  | optional _ _ => rfl
  | star _ _ _ _ => rfl
  | @plus e greedy v os f hfirst hrest ih ih' =>
      obtain ⟨hu, -⟩ := hfirst.done_of_andThen hrest hdone
      show (Expr.plus e greedy).nullable _ = true
      rw [Expr.nullable]
      exact Expr.nullable_of_phrase (ih hu)
  | answered hanswer => exact hfair _ _ _ hanswer (Answer.done_mem_outcomes.mp hdone).1
  | entered _ _ ih => exact ih (done_mem_map_within.mp hdone)
  | plain hbody _ ih => exact knownNullable_of_body hbody (Expr.nullable_of_phrase (ih hdone))
  | precedence hbody hfirst hrest ih ih' =>
      exact knownNullable_of_body hbody (ih (hfirst.done_of_andThen hrest hdone).1)
  | loopEnd _ _ => rfl
  | loopSkip _ _ _ _ _ => rfl
  | loopMore _ _ _ _ _ _ _ _ _ _ _ => rfl

/-- What comes behind a phrase is searched in front of the same tokens only if the phrase is
nullable. -/
theorem Enumerates.exists_behind {y : Phrase Label RuleIndex}
    (hfair : answers.Fair (knownNullable rules))
    (h : Enumerates (.ofRules rules alphabet) answers x v os)
    (hsame : x.nullable (knownNullable rules) = true →
      ∃ os', Enumerates (.ofRules rules alphabet) answers y v os')
    (hlater : ∀ u, Later u v → ∃ os', Enumerates (.ofRules rules alphabet) answers y u os') :
    ∃ f : List TokenType → List Outcome,
      ∀ u, .done u ∈ os → Enumerates (.ofRules rules alphabet) answers y u (f u) := by
  have hall : ∀ u, .done u ∈ os →
      ∃ os', Enumerates (.ofRules rules alphabet) answers y u os' := by
    intro u hu
    -- A phrase that leaves all tokens is nullable. Otherwise it is later.
    rcases eq_or_later (h.suffix hu) with rfl | hu'
    · exact hsame (h.nullable_of_done hfair hu)
    · exact hlater u hu'
  choose! f hf using hall
  exact ⟨f, hf⟩

/-- The operators from a position on are searched, if each of them is. -/
theorem exists_enumerates_loop (hfair : answers.Fair (knownNullable rules)) {r : RuleIndex}
    {level : Int} {primaries operators : List (Expr Label RuleIndex)}
    (hbody : rules[r]?.map Rule.body = some (.precedence primaries operators))
    (hnullable : ∀ e ∈ operators, e.nullable (knownNullable rules) = false)
    (hoperators : ∀ e ∈ operators,
      ∃ os, Enumerates (.ofRules rules alphabet) answers (.expr e) v os)
    (hrules : ∀ u level', Later u v →
      ∃ os, Enumerates (.ofRules rules alphabet) answers (.rule r level') u os)
    (hloop : ∀ u, Later u v →
      ∃ os, Enumerates (.ofRules rules alphabet) answers (.loop r level 0) u os) (next : Nat) :
    ∃ os, Enumerates (.ofRules rules alphabet) answers (.loop r level next) v os := by
  -- Induction on the number of operators that are still to be tried.
  induction hleft : operators.length - next generalizing next with
  | zero => exact ⟨_, .loopEnd hbody (by omega)⟩
  | succ left ih =>
      have hlt : next < operators.length := by omega
      obtain ⟨rest, hrest⟩ := ih (next + 1) (by omega)
      by_cases hlevel : level ≤ operators.length - next
      · have hget := List.getElem?_eq_getElem hlt
        have hmem := List.getElem_mem hlt
        obtain ⟨os, hos⟩ := hoperators _ hmem
        -- An operator reads a token, so what comes behind it has fewer tokens to go.
        have hread :
            (Phrase.expr operators[next]).nullable (knownNullable rules) = true → False := by
          intro htrue
          have hfalse := hnullable _ hmem
          rw [Expr.nullable_of_phrase htrue] at hfalse
          cases hfalse
        obtain ⟨f, hf⟩ := hos.exists_behind hfair (fun htrue => (hread htrue).elim)
          fun u hu => hrules u (operators.length - next + 1) hu
        have hafter : ∀ u, .done u ∈ andThen os f → Later u v := by
          intro u hu
          obtain ⟨u', hu', hu⟩ := done_mem_andThen.mp hu
          rcases eq_or_later (hos.suffix hu') with rfl | hlater
          · exact (hread (hos.nullable_of_done hfair hu')).elim
          · exact hlater.of_suffix ((hf u' hu').suffix hu)
        have hall : ∀ u, .done u ∈ andThen os f →
            ∃ os', Enumerates (.ofRules rules alphabet) answers (.loop r level 0) u os' :=
          fun u hu => hloop u (hafter u hu)
        choose! g hg using hall
        exact ⟨_, .loopMore hbody hget hlevel hos hf hg hrest⟩
      · exact ⟨_, .loopSkip hbody hlt (by omega) hrest⟩

/-- A search through a grounded phrase has a list of outcomes. -/
theorem Grounded.exists_enumerates (hfair : answers.Fair (knownNullable rules))
    (h : Grounded rules x v) : ∃ os, Enumerates (.ofRules rules alphabet) answers x v os := by
  induction h with
  | terminal => exact ⟨_, .terminal⟩
  | ref _ ih =>
      obtain ⟨os, hos⟩ := ih
      exact ⟨os, .ref rfl hos⟩
  | empty => exact ⟨_, .empty⟩
  | seqNil => exact ⟨_, .seqNil⟩
  | seqCons _ _ _ ih ihsame ihlater =>
      obtain ⟨os, hos⟩ := ih
      obtain ⟨f, hf⟩ := hos.exists_behind hfair
        (fun hnullable => ihsame (Expr.nullable_of_phrase hnullable)) ihlater
      exact ⟨_, .seqCons hos hf⟩
  | altNil => exact ⟨_, .altNil⟩
  | altCons _ _ ih ih' =>
      obtain ⟨os, hos⟩ := ih
      obtain ⟨os', hos'⟩ := ih'
      exact ⟨_, .altCons hos hos'⟩
  | optional _ ih =>
      obtain ⟨os, hos⟩ := ih
      exact ⟨_, .optional hos⟩
  | star hnullable _ _ ih ihlater =>
      obtain ⟨os, hos⟩ := ih
      obtain ⟨f, hf⟩ := hos.exists_behind hfair (fun htrue => by
        rw [Expr.nullable_of_phrase htrue] at hnullable
        cases hnullable) ihlater
      exact ⟨_, .star hos hf⟩
  | plus hnullable _ _ ih ihlater =>
      obtain ⟨os, hos⟩ := ih
      obtain ⟨f, hf⟩ := hos.exists_behind hfair (fun htrue => by
        rw [Expr.nullable_of_phrase htrue] at hnullable
        cases hnullable) ihlater
      exact ⟨_, .plus hos hf⟩
  | @rule r level v _ _ ih _ =>
      -- A call that is answered has the outcomes of the answer, and the body is not needed.
      cases hanswer : answers v r with
      | some a => exact ⟨_, .answered hanswer⟩
      | none =>
          obtain ⟨os, hos⟩ := ih
          exact ⟨_, .entered hanswer hos⟩
  | plain hbody _ ih =>
      obtain ⟨os, hos⟩ := ih
      exact ⟨os, .plain hbody hos⟩
  | precedence hbody _ _ _ ih ihsame ihlater =>
      obtain ⟨os, hos⟩ := ih
      obtain ⟨f, hf⟩ := hos.exists_behind hfair ihsame ihlater
      exact ⟨_, .precedence hbody hos hf⟩
  | @loop r level next primaries operators v hbody hnullable _ _ _ ih ihrule ihloop =>
      exact exists_enumerates_loop hfair hbody hnullable ih ihrule ihloop next

end

end Caret
