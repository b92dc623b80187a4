import Caret.Grammar.Basic
import Caret.Proofs.LeftRecursion
import Caret.Proofs.Realization
import Caret.Proofs.Resolution

/-!
# `Caret.Proofs.Acceptance`: what holds of a grammar that is accepted

`Source.build` accepts a grammar after a number of checks. `WellFormed` states what the checks
establish of the resolved rules: labels stand for the symbols they admit, references are in range,
nothing is repeated that can match without reading a token, and calls before the first token come
to an end. `Source.wellFormed_of_build` derives it from the checks, `Source.realizes_of_build` says
that the network is made of the pieces of the rules, and `Source.resolves_of_build` relates the
resolved rules to those that were written.
-/

set_option autoImplicit false

namespace Caret

/-- Whether a rule can match without reading a token, by the table of nullable rules. -/
def knownNullable (rules : List (Rule Label RuleIndex)) : RuleIndex → Bool :=
  marked (nullableRules rules)

/-- What the checks of a grammar establish. -/
structure WellFormed (rules : List (Rule Label RuleIndex)) (u : Universe) : Prop where
  fits : ∀ rule ∈ rules, rule.body.Fits (Label.Proper u) (· < rules.length)
  loops : ∀ rule ∈ rules, rule.body.repeatsNullable (knownNullable rules) = false
  settled : ∀ r, Settled (leftCallsOf rules (nullableRules rules)) r

/-! ### Taking the checks apart -/

/-- No name is found twice exactly if the names differ from each other and from those seen before.
The list of seen names makes the statement fit for induction. -/
theorem firstRepeated?_eq_none_iff {seen names : List String} :
    firstRepeated? seen names = none ↔ names.Nodup ∧ ∀ name ∈ names, name ∉ seen := by
  induction names generalizing seen with
  | nil => simp [firstRepeated?]
  | cons name names ih =>
      rw [firstRepeated?]
      by_cases hseen : name ∈ seen
      · simp [hseen]
      · rw [if_neg hseen, ih]
        rw [List.nodup_cons, List.forall_mem_cons]
        simp only [List.mem_cons, not_or]
        -- A later name must be new both to the names seen before and to the first one.
        constructor
        · rintro ⟨hnodup, hrest⟩
          exact ⟨⟨fun hmem => (hrest name hmem).1 rfl, hnodup⟩, hseen,
            fun name' hmem => (hrest name' hmem).2⟩
        · rintro ⟨⟨hnew, hnodup⟩, -, hrest⟩
          exact ⟨hnodup, fun name' hmem => ⟨fun heq => hnew (heq ▸ hmem), hrest name' hmem⟩⟩

namespace Source

/-- There are rules, and no name is given twice. -/
theorem checkNames_eq_ok_iff {s : Source} : s.checkNames = .ok () ↔
    s.rules ≠ [] ∧ (s.rules.map Rule.name).Nodup ∧ (s.lexerRules.map LexerRule.name).Nodup := by
  have hnone : ∀ names : List String, firstRepeated? [] names = none ↔ names.Nodup := by
    intro names
    simp [firstRepeated?_eq_none_iff]
  rw [checkNames, ← hnone, ← hnone]
  by_cases hrules : s.rules = []
  · simp [hrules]
  · rw [if_neg (by simpa using hrules)]
    cases firstRepeated? [] (s.rules.map Rule.name) with
    | some name => simp
    | none =>
        cases firstRepeated? [] (s.lexerRules.map LexerRule.name) with
        | some name => simp
        | none => simp [hrules]

/-- Names are checked first, so a grammar that is accepted has passed that check. -/
theorem checkNames_of_build {s : Source} {g : Grammar} (h : s.build = .ok g) :
    s.checkNames = .ok () := by
  rw [build] at h
  obtain ⟨rules, hcheck, -⟩ := exists_of_bind_ok h
  rw [check] at hcheck
  obtain ⟨⟨⟩, hnames, -⟩ := exists_of_bind_ok hcheck
  exact hnames

/-- The parts of a grammar that is accepted. -/
theorem build_spec {s : Source} {g : Grammar} (h : s.build = .ok g) :
    s.resolve = .ok g.rules ∧ checkLoops g.rules = .ok () ∧
      g.recognizer.network = .ofRules g.rules s.numbering.size := by
  rw [build] at h
  obtain ⟨rules, hcheck, h⟩ := exists_of_bind_ok h
  cases h
  rw [check] at hcheck
  -- Names, references and loops are checked in this order, each only if the one before passed.
  obtain ⟨_, -, hcheck⟩ := exists_of_bind_ok hcheck
  obtain ⟨rules', hresolve, hcheck⟩ := exists_of_bind_ok hcheck
  obtain ⟨⟨⟩, hloops, hcheck⟩ := exists_of_bind_ok hcheck
  cases hcheck
  exact ⟨hresolve, hloops, rfl⟩

/-- A grammar passes the second check if no rule repeats something nullable and no cycle of first
calls was found. -/
theorem checkLoops_spec {rules : List (Rule Label RuleIndex)} (h : checkLoops rules = .ok ()) :
    (∀ rule ∈ rules, rule.body.repeatsNullable (knownNullable rules) = false) ∧
      leftCycles rules (nullableRules rules) = [] := by
  simp only [checkLoops] at h
  split at h
  · cases h
  · rename_i hnone
    rw [List.find?_eq_none] at hnone
    split at h
    · rename_i hcycles
      refine ⟨?_, hcycles⟩
      intro rule hrule
      rw [← Bool.not_eq_true]
      exact hnone rule hrule
    · cases h

/-- Each rule is resolved on its own. -/
theorem mapM_resolve_spec {n : Numbering} {names : List String}
    {written : List (Rule Terminal String)} {rules : List (Rule Label RuleIndex)}
    (h : (written.mapM fun r =>
      (r.body.resolve (labelOf n r.name) (ruleOf names r.name)).map fun body =>
        (⟨r.name, body⟩ : Rule Label RuleIndex)) = .ok rules) :
    rules.length = written.length ∧ ∀ (r : Nat) (rule : Rule Label RuleIndex),
      rules[r]? = some rule → ∃ rule', written[r]? = some rule' ∧
        rule'.body.resolve (labelOf n rule'.name) (ruleOf names rule'.name) = .ok rule.body := by
  induction written generalizing rules with
  | nil =>
      rw [List.mapM_nil] at h
      cases h
      exact ⟨rfl, by simp⟩
  | cons first rest ih =>
      rw [List.mapM_cons] at h
      obtain ⟨first', hfirst, h⟩ := exists_of_bind_ok h
      obtain ⟨rest', hrest, h⟩ := exists_of_bind_ok h
      cases h
      obtain ⟨body, hbody, rfl⟩ := exists_of_map_ok hfirst
      obtain ⟨hlength, hget⟩ := ih hrest
      refine ⟨by simp [hlength], ?_⟩
      intro r rule hrule
      -- The rule is the first one or has its counterpart in the rest.
      cases r with
      | zero =>
          rw [List.getElem?_cons_zero] at hrule
          cases hrule
          exact ⟨first, rfl, hbody⟩
      | succ r =>
          rw [List.getElem?_cons_succ] at hrule
          exact hget r rule hrule

/-! ### Names and numbers -/

/-- The label of a terminal, whatever rule the terminal is in. -/
def IsLabel (s : Source) (t : Terminal) (l : Label) : Prop :=
  ∃ rule, labelOf s.numbering rule t = .ok l

/-- The position of the rule that a name refers to. -/
def IsPosition (s : Source) (name : String) (r : RuleIndex) : Prop :=
  (s.rules.map Rule.name).idxOf? name = some r

/-- A resolved rule comes from the rule that is written at its position. Its terminals became labels
and its names positions. -/
theorem body_resolves {s : Source} {rules : List (Rule Label RuleIndex)}
    (h : s.resolve = .ok rules) {r : RuleIndex} {rule : Rule Label RuleIndex}
    (hr : rules[r]? = some rule) :
    ∃ rule', s.rules[r]? = some rule' ∧
      Body.Resolves s.IsLabel s.IsPosition rule'.body rule.body := by
  obtain ⟨-, hget⟩ := mapM_resolve_spec h
  obtain ⟨rule', hrule', hresolve⟩ := hget r rule hr
  refine ⟨rule', hrule', (Body.resolves_of_resolve hresolve).mono ?_ ?_⟩
  · intro t l hl
    exact ⟨rule'.name, hl⟩
  · intro name i hi
    simp only [ruleOf] at hi
    split at hi
    · rename_i j hj
      cases hi
      exact hj
    · cases hi

/-- Every rule that is written has a resolved rule at its position. -/
theorem exists_resolved {s : Source} {rules : List (Rule Label RuleIndex)}
    (h : s.resolve = .ok rules) {r : RuleIndex} {rule : Rule Terminal String}
    (hr : s.rules[r]? = some rule) :
    ∃ rule', rules[r]? = some rule' ∧
      Body.Resolves s.IsLabel s.IsPosition rule.body rule'.body := by
  have hlt : r < rules.length := by
    rw [(mapM_resolve_spec h).1]
    exact (List.getElem?_eq_some_iff.mp hr).1
  have hget := List.getElem?_eq_getElem hlt
  obtain ⟨written, hwritten, hresolves⟩ := body_resolves h hget
  cases hr.symm.trans hwritten
  exact ⟨rules[r], hget, hresolves⟩

/-- The token types of a grammar, which its labels range over. -/
def tokenUniverse (s : Source) : Universe := ⟨firstTokenType, s.numbering.size⟩

/-- The resolved rules define the same as the rules that were written. -/
theorem definitions_resolves {s : Source} {rules : List (Rule Label RuleIndex)}
    (hsize : s.numbering.size < 2 ^ 31 - 2) (h : s.resolve = .ok rules) :
    s.definitions.Resolves s.IsLabel s.IsPosition (.ofRules rules s.tokenUniverse) where
  symbols_eq := by
    -- The rule is only used to word an error, so the label does not depend on it.
    rintro t l ⟨rule, hl⟩
    exact (labelOf_denotes hsize hl).values_eq
  callee_eq := by
    intro name r hr
    exact hr.symm
  body := by
    intro r body' hbody'
    obtain ⟨rule, hrule, rfl⟩ := Option.map_eq_some_iff.mp hbody'
    obtain ⟨rule', hrule', hresolves⟩ := body_resolves h hrule
    exact ⟨rule'.body, Option.map_eq_some_iff.mpr ⟨rule', hrule', rfl⟩, hresolves⟩

/-- The rules of an accepted grammar define the same as the rules that were written. The bound keeps
token types away from the end of their range, where labels could overflow. -/
theorem resolves_of_build {s : Source} {g : Grammar} (h : s.build = .ok g)
    (hsize : s.numbering.size < 2 ^ 31 - 2) :
    s.definitions.Resolves s.IsLabel s.IsPosition (.ofRules g.rules s.tokenUniverse) :=
  definitions_resolves hsize (build_spec h).1

/-! ### Accepted grammars -/

/-- An accepted grammar is well-formed. -/
theorem wellFormed_of_build {s : Source} {g : Grammar} (h : s.build = .ok g)
    (hsize : s.numbering.size < 2 ^ 31 - 2) : WellFormed g.rules s.tokenUniverse := by
  obtain ⟨hresolve, hloops, -⟩ := build_spec h
  obtain ⟨hrepeats, hcycles⟩ := checkLoops_spec hloops
  -- No cycle was found, so no rule has to be kept away from.
  refine ⟨?_, hrepeats, settled_of_leftCycles (fun _ _ hc => hc) (by simp [hcycles])⟩
  intro rule hrule
  obtain ⟨r, hr⟩ := List.mem_iff_getElem?.mp hrule
  obtain ⟨rule', -, hresolves⟩ := body_resolves hresolve hr
  refine hresolves.fits ?_ ?_
  · rintro t l ⟨name, hl⟩
    have hdenotes : l.Denotes s.tokenUniverse _ := labelOf_denotes hsize hl
    show l.Denotes _ (l.values _)
    rw [hdenotes.values_eq]
    exact hdenotes
  · intro name i hi
    -- A name refers to a position within the list of rules.
    have hlt : i < (s.rules.map Rule.name).length := by
      rw [IsPosition, List.idxOf?_eq_some_iff] at hi
      exact hi.1
    rw [List.length_map] at hlt
    rw [(mapM_resolve_spec hresolve).1]
    exact hlt

/-- The network of an accepted grammar is made of the pieces of its rules. Compiling asks only that
labels and references are in range. -/
theorem realizes_of_build {s : Source} {g : Grammar} (h : s.build = .ok g)
    (hsize : s.numbering.size < 2 ^ 31 - 2) :
    g.recognizer.network.Realizes g.rules s.tokenUniverse := by
  rw [(build_spec h).2.2]
  exact Network.ofRules_realizes (wellFormed_of_build h hsize).fits

end Source

end Caret
