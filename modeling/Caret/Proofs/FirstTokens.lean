import Caret.Proofs.Traversal

/-!
# `Caret.Proofs.FirstTokens`: the table of first tokens

The table of a network is made by traversals of its rules in front of nothing but the caret. These
traversals end, so with enough steps allowed there is a table (`FirstTokens.ofNetwork_ends`). It
describes the grammar: the entry of a rule holds what a search through the rule at the caret comes
to.
-/

set_option autoImplicit false

namespace Caret

/-- The entry of each rule holds the outcomes of a search through it at the caret. -/
structure FirstTokens.Describes (f : FirstTokens) (rules : List (Rule Label RuleIndex))
    (alphabet : Universe) : Prop where
  entry_eq : ∀ r os, r < rules.length →
    Enumerates (.ofRules rules alphabet) noAnswers (.rule r 0) [] os →
      f.entry? r = some ⟨merge (Outcome.candidates os), Outcome.reachesEnd os⟩
  entry_none : ∀ r, rules.length ≤ r → f.entry? r = none

/-- If a computation succeeds for each element, it does for the list. -/
theorem mapM_eq_ok {α β ε : Type} {g : α → Except ε β} {h : α → β} {xs : List α}
    (hall : ∀ x ∈ xs, g x = .ok (h x)) : xs.mapM g = .ok (xs.map h) := by
  induction xs with
  | nil => rfl
  | cons x xs ih =>
      rw [List.mapM_cons, hall x (by simp), ih fun y hy => hall y (List.mem_cons_of_mem _ hy)]
      rfl

section

variable {rules : List (Rule Label RuleIndex)} {alphabet : Universe} {n : Network}
  {f : FirstTokens}

/-- A network of a well-formed grammar has a table, and the table describes the grammar. -/
theorem FirstTokens.ofNetwork_ends (h : WellFormed rules alphabet)
    (hn : n.Realizes rules alphabet) :
    ∃ f, Ends (fun limit => FirstTokens.ofNetwork n limit) f ∧ f.Describes rules alphabet := by
  -- The traversal of each rule comes to an end with the outcomes of a search.
  have hends : ∀ r, r < rules.length → ∃ entry : RuleStart,
      (∀ os, Enumerates (.ofRules rules alphabet) noAnswers (.rule r 0) [] os →
        entry = ⟨merge (Outcome.candidates os), Outcome.reachesEnd os⟩) ∧
      Ends (fun limit => (Traversal.atStart n limit r).map fun t =>
        (⟨merge t.found, t.reachedEnd⟩ : RuleStart)) entry := by
    intro r hr
    obtain ⟨os, hos⟩ := h.exists_enumerates_body (fair_noAnswers _) hr []
    refine ⟨_, ?_, (Traversal.atStart_of_enumerates hn hr hos).map _⟩
    intro os' hos'
    rw [hos'.deterministic (.entered rfl hos)]
    rfl
  have hsome : Nonempty RuleStart := ⟨⟨[], false⟩⟩
  choose! entry hentry hends using hends
  -- The rules are finitely many, so one number of steps is enough for all of them.
  obtain ⟨bound, hbound⟩ := exists_bound_of_lt rules.length hends
  have hcount : n.ruleCount = rules.length := hn.count_eq
  refine ⟨⟨((List.range rules.length).map entry).toArray⟩, ⟨bound, fun limit hlimit => ?_⟩, ?_, ?_⟩
  · have hall : ∀ r ∈ List.range rules.length, (do
        let t ← Traversal.atStart n limit r
        return (⟨merge t.found, t.reachedEnd⟩ : RuleStart)) = .ok (entry r) :=
      fun r hr => hbound r (List.mem_range.mp hr) limit hlimit
    show FirstTokens.ofNetwork n limit = _
    rw [FirstTokens.ofNetwork, hcount, mapM_eq_ok hall]
    rfl
  · intro r os hr hos
    rw [← hentry r hr os hos]
    simp [FirstTokens.entry?, hr]
  · intro r hr
    simp [FirstTokens.entry?, hr]

namespace FirstTokens.Describes

/-- By the table a rule is nullable if it derives the empty text. -/
theorem isNullable_iff (hf : f.Describes rules alphabet) (h : WellFormed rules alphabet)
    (r : RuleIndex) : f.isNullable r = true ↔
      r < rules.length ∧ Yields (.ofRules rules alphabet) (.rule r 0) [] := by
  rcases Nat.lt_or_ge r rules.length with hr | hr
  · obtain ⟨os, hos⟩ := h.exists_enumerates_rule (fair_noAnswers _) hr 0 []
    rw [FirstTokens.isNullable, hf.entry_eq r os hr hos, and_iff_right hr]
    exact hos.reachesEnd_iff
  · rw [FirstTokens.isNullable, hf.entry_none r hr]
    constructor
    · intro hfalse
      cases hfalse
    · intro hyields
      exact absurd hyields.1 (Nat.not_lt_of_ge hr)

/-- A rule that is nullable by the table is marked as nullable. -/
theorem knownNullable (hf : f.Describes rules alphabet) (h : WellFormed rules alphabet)
    {r : RuleIndex} (hnullable : f.isNullable r = true) :
    Caret.knownNullable rules r = true := by
  obtain ⟨hr, hyields⟩ := (hf.isNullable_iff h r).mp hnullable
  exact h.nullable_of_yields hr hyields

end FirstTokens.Describes

end

end Caret
