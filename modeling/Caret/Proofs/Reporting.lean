import Caret.Proofs.Completion
import Caret.Proofs.Suggestions

/-!
# `Caret.Proofs.Reporting`: reporting rules as a whole

A rule that is to be reported is not entered at the caret. It is found itself, in place of all that
could be found in it. Rules that were entered in front of a token stay open, also if they are to be
reported. So the chains of two searches, one that reports rules and one that does not, compare only
from the caret on: a token that is found below a rule of `reported` may be missing, but then the
chain of the token leads through a rule that is found in its place.

`Condenses reported os os'` states this for the outcomes `os` without and `os'` with rules to
report. Unlike `CutsTo`, it is kept within any rule (`Condenses.within`), also within one that is to
be reported. Calls at the caret condense for two reasons: a rule that is reported covers everything
below it (`condenses_reported`), and what a table holds is cut (`condenses_cut`).
`reporting_loses_nothing` is the result for traversals, with a table of first tokens and without.
-/

set_option autoImplicit false

namespace Caret

open Outcome

/-! ### Outcomes with and without rules to report -/

/-- A token is found with its chain, or a rule of the chain that is to be reported is found in its
place, with the chain up to there. -/
def Covers (reported : List RuleIndex) (os : List Outcome) (t : TokenType) (chain : Chain) : Prop :=
  .report (.token t) chain ∈ os ∨
    ∃ i r, chain[i]? = some r ∧ r ∈ reported ∧ .report (.rule r) (chain.take i) ∈ os

/-- The outcomes `os'` have the same ends as `os`, no other tokens, and cover all tokens of `os`. -/
structure Condenses (reported : List RuleIndex) (os os' : List Outcome) : Prop where
  done_iff : ∀ u, .done u ∈ os ↔ .done u ∈ os'
  token : ∀ t chain, .report (.token t) chain ∈ os' → .report (.token t) chain ∈ os
  covers : ∀ t chain, .report (.token t) chain ∈ os → Covers reported os' t chain

section

variable {reported : List RuleIndex} {os os' : List Outcome}

/-- More reports cover no less. -/
theorem Covers.mono {t : TokenType} {chain : Chain} (h : Covers reported os t chain)
    (hsub : ∀ id chain, .report id chain ∈ os → .report id chain ∈ os') :
    Covers reported os' t chain := by
  rcases h with h | ⟨i, r, hi, hr, h⟩
  · exact Or.inl (hsub _ _ h)
  · exact Or.inr ⟨i, r, hi, hr, hsub _ _ h⟩

/-- Outcomes may stay as they are. -/
theorem Condenses.refl (reported : List RuleIndex) (os : List Outcome) :
    Condenses reported os os :=
  ⟨fun _ => Iff.rfl, fun _ _ h => h, fun _ _ h => Or.inl h⟩

/-- Alternatives condense one by one. -/
theorem Condenses.append {ps ps' : List Outcome} (h : Condenses reported os os')
    (h' : Condenses reported ps ps') : Condenses reported (os ++ ps) (os' ++ ps') where
  done_iff u := by rw [List.mem_append, List.mem_append, h.done_iff, h'.done_iff]
  token t chain ht :=
    List.mem_append.mpr ((List.mem_append.mp ht).imp (h.token t chain) (h'.token t chain))
  covers t chain ht := by
    rcases List.mem_append.mp ht with ht | ht
    · exact (h.covers t chain ht).mono fun _ _ => List.mem_append_left _
    · exact (h'.covers t chain ht).mono fun _ _ => List.mem_append_right _

/-- A sequence condenses if its first part does, and its second part behind each end of the first.
The ends of the first part are the same in both searches. -/
theorem Condenses.andThen {f f' : List TokenType → List Outcome} (h : Condenses reported os os')
    (h' : ∀ u, .done u ∈ os → Condenses reported (f u) (f' u)) :
    Condenses reported (andThen os f) (andThen os' f') where
  done_iff u := by
    rw [done_mem_andThen, done_mem_andThen]
    refine exists_congr fun v => ?_
    rw [← h.done_iff]
    exact and_congr_right fun hv => (h' v hv).done_iff u
  token t chain ht := by
    rw [report_mem_andThen] at ht ⊢
    rcases ht with ht | ⟨v, hv, ht⟩
    · exact Or.inl (h.token t chain ht)
    · have hv' := (h.done_iff v).mpr hv
      exact Or.inr ⟨v, hv', (h' v hv').token t chain ht⟩
  covers t chain ht := by
    rcases report_mem_andThen.mp ht with ht | ⟨v, hv, ht⟩
    · exact (h.covers t chain ht).mono fun _ _ h => report_mem_andThen.mpr (Or.inl h)
    · have hv' := (h.done_iff v).mp hv
      refine ((h' v hv).covers t chain ht).mono fun _ _ h => ?_
      exact report_mem_andThen.mpr (Or.inr ⟨v, hv', h⟩)

/-- So the relation is one that searches keep, as soon as calls keep it. -/
theorem relating_condenses (reported : List RuleIndex) : Relating (Condenses reported) where
  done_iff h := h.done_iff _
  done _ := .refl _ _
  symbols _ _ := .refl _ _
  append := .append
  andThen := .andThen

/-- Within a rule, a token is covered by the rules below it, as before. -/
theorem Covers.within {t : TokenType} {chain : Chain} (h : Covers reported os t chain)
    (r : RuleIndex) : Covers reported (os.map (within r)) t (r :: chain) := by
  rcases h with h | ⟨i, r', hi, hr', h⟩
  · exact Or.inl (report_mem_map_within.mpr ⟨chain, rfl, h⟩)
  · exact Or.inr ⟨i + 1, r', hi, hr', report_mem_map_within.mpr ⟨_, rfl, h⟩⟩

/-- Opening a rule around both searches keeps the relation, also if the rule is to be reported. -/
theorem Condenses.within (h : Condenses reported os os') (r : RuleIndex) :
    Condenses reported (os.map (within r)) (os'.map (within r)) where
  done_iff u := by rw [done_mem_map_within, done_mem_map_within, h.done_iff]
  token t chain ht := by
    obtain ⟨c, rfl, hc⟩ := report_mem_map_within.mp ht
    exact report_mem_map_within.mpr ⟨c, rfl, h.token t c hc⟩
  covers t chain ht := by
    obtain ⟨c, rfl, hc⟩ := report_mem_map_within.mp ht
    exact (h.covers t c hc).within r

/-! ### Calls at the caret -/

/-- A rule that is reported covers all that is found in it. -/
theorem condenses_reported {r : RuleIndex} (hr : r ∈ reported) {nullable : Bool}
    (hdone : ∀ u, .done u ∈ os ↔ nullable = true ∧ u = [])
    (hchain : ∀ id chain, .report id chain ∈ os → chain[0]? = some r) :
    Condenses reported os (Answer.outcomes ⟨[(.rule r, [])], nullable⟩ []) where
  done_iff u := by rw [hdone, Answer.done_mem_outcomes]
  token t chain ht := by simp [Answer.report_mem_outcomes] at ht
  covers t chain ht :=
    Or.inr ⟨0, r, hchain _ _ ht, hr, Answer.report_mem_outcomes.mpr (by simp)⟩

/-- Cutting chains at the rules that are to be reported leaves what covers them. -/
theorem condenses_cut (reported : List RuleIndex) (os : List Outcome) :
    Condenses reported os (os.map (cut reported)) where
  done_iff u := done_mem_map_cut.symm
  token t chain ht := by
    obtain ⟨id', chain', ho, hcut⟩ := report_mem_map_cut.mp ht
    cases id' with
    | rule r => cases hcut
    | token t' =>
        rcases FirstTokens.cut_token reported t' chain' with hsame | ⟨i, r, -, -, hrule⟩
        · rw [hsame] at hcut
          cases hcut
          exact ho
        · rw [hrule] at hcut
          cases hcut
  covers t chain ht := by
    rcases FirstTokens.cut_token reported t chain with hsame | ⟨i, r, hi, hr, hrule⟩
    · exact Or.inl (report_mem_map_cut.mpr ⟨_, _, ht, hsame⟩)
    · exact Or.inr ⟨i, r, hi, hr, report_mem_map_cut.mpr ⟨_, _, ht, hrule⟩⟩

end

/-! ### Searches -/

section

variable {rules : List (Rule Label RuleIndex)} {alphabet : Universe} {f : FirstTokens}
  {reported : List RuleIndex} {r : RuleIndex} {v : List TokenType} {x : Phrase Label RuleIndex}
  {os os' : List Outcome}

/-- What the table answers if rules are to be reported is cut from what it answers otherwise. -/
theorem FirstTokens.outcomes_starts (f : FirstTokens) (reported : List RuleIndex) (r : RuleIndex)
    (nullable : Bool) : Answer.outcomes ⟨f.starts reported r, nullable⟩ [] =
      (Answer.outcomes ⟨f.starts [] r, nullable⟩ []).map (Outcome.cut reported) := by
  have hstarts : f.starts reported r = (f.starts [] r).map fun y => cut reported y.1 y.2 := by
    cases hentry : f.entry? r with
    | none => simp [starts, hentry]
    | some entry =>
        rw [starts_eq_findings hentry, starts_eq_findings hentry,
          List.map_congr_left fun y _ => cut_nil y, List.map_id']
  rw [Answer.outcomes, Answer.outcomes, hstarts, List.map_append, List.map_map, List.map_map]
  cases nullable <;> rfl

/-- All that the table holds for a rule is found in that rule. -/
theorem FirstTokens.Describes.head_starts (hf : f.Describes rules alphabet)
    (h : WellFormed rules alphabet) {id : SuggestionId} {chain : Chain}
    (hmem : (id, chain) ∈ f.starts [] r) : chain[0]? = some r := by
  rcases Nat.lt_or_ge r rules.length with hr | hr
  · obtain ⟨os, hos⟩ := h.exists_enumerates_rule (fair_noAnswers _) hr 0 []
    have hholds : f.Holds r os := hf.entry_eq r os hr hos
    rw [hholds.starts_nil, ← merge_map_candidate, mem_findings_merge, mem_reports] at hmem
    -- The table was made by entering the rule, so its chains start with it.
    cases hos with
    | answered ha => cases ha
    | entered _ _ =>
        obtain ⟨c, hc, -⟩ := report_mem_map_within.mp hmem
        rw [show chain = r :: c from hc]
        rfl
  · rw [starts, hf.entry_none r hr] at hmem
    cases hmem

/-- Without a table, a search that reports rules condenses the one that does not. -/
theorem Enumerates.condenses (h : WellFormed rules alphabet) (hf : f.Describes rules alphabet)
    (hos : Enumerates (.ofRules rules alphabet) noAnswers x v os)
    (hos' : Enumerates (.ofRules rules alphabet)
      (Options.answers ⟨reported, [], none⟩ f.isNullable) x v os') :
    Condenses reported os os' := by
  refine Enumerates.related (relating_condenses reported) ?_ ?_ hos (List.suffix_refl v) hos'
  · intro v r level a os' _ ha
    cases ha
  · intro v r level os os' _ ha hbody ih hos'
    cases hos' with
    | entered _ hbody' => exact (ih _ hbody').within r
    | answered ha' =>
        cases v with
        | cons t v => cases ha'
        | nil =>
            -- Only a rule that is to be reported is not entered, and only at the caret.
            have hr : r ∈ reported := by
              by_contra hnot
              cases (if_neg hnot).symm.trans ha'
            cases (if_pos hr).symm.trans ha'
            refine condenses_reported hr (fun u => ?_) fun id chain hreport => ?_
            · exact hf.done_iff h (lt_of_enumerates_body hbody) (.entered ha hbody)
            · obtain ⟨c, rfl, -⟩ := report_mem_map_within.mp hreport
              rfl

/-- The same with a table. -/
theorem Enumerates.condenses_of_table (h : WellFormed rules alphabet)
    (hf : f.Describes rules alphabet)
    (hos : Enumerates (.ofRules rules alphabet)
      (Options.answers ⟨[], [], some f⟩ f.isNullable) x v os)
    (hos' : Enumerates (.ofRules rules alphabet)
      (Options.answers ⟨reported, [], some f⟩ f.isNullable) x v os') :
    Condenses reported os os' := by
  refine Enumerates.related (relating_condenses reported) ?_ ?_ hos (List.suffix_refl v) hos'
  · intro v r level a os' _ ha hos'
    cases v with
    | cons t v =>
        -- In front of a token the table rules out the same calls.
        have hsame : Options.answers ⟨reported, [], some f⟩ f.isNullable (t :: v) r = some a := ha
        cases hos' with
        | entered ha' _ => cases hsame.symm.trans ha'
        | answered ha' =>
            cases hsame.symm.trans ha'
            exact .refl _ _
    | nil =>
        cases (Options.answers_of_table List.not_mem_nil rfl).symm.trans ha
        -- At the caret the table answers every call. A rule that is to be reported answers for
        -- itself, and for any other rule the chains of the table are cut.
        by_cases hr : r ∈ reported
        · have hanswer : Options.answers ⟨reported, [], some f⟩ f.isNullable [] r =
              some ⟨[(.rule r, [])], f.isNullable r⟩ := if_pos hr
          cases hos' with
          | entered ha' _ => cases hanswer.symm.trans ha'
          | answered ha' =>
              cases hanswer.symm.trans ha'
              refine condenses_reported hr (fun u => Answer.done_mem_outcomes) ?_
              intro id chain hreport
              exact hf.head_starts h (Answer.report_mem_outcomes.mp hreport)
        · have hanswer : Options.answers ⟨reported, [], some f⟩ f.isNullable [] r =
              some ⟨f.starts reported r, f.isNullable r⟩ := Options.answers_of_table hr rfl
          cases hos' with
          | entered ha' _ => cases hanswer.symm.trans ha'
          | answered ha' =>
              cases hanswer.symm.trans ha'
              rw [f.outcomes_starts reported]
              exact condenses_cut _ _
  · intro v r level os os' _ ha _ ih hos'
    cases v with
    | nil => cases (Options.answers_of_table List.not_mem_nil rfl).symm.trans ha
    | cons t v =>
        have hsame : Options.answers ⟨reported, [], some f⟩ f.isNullable (t :: v) r = none := ha
        cases hos' with
        | entered _ hbody' => exact (ih _ hbody').within r
        | answered ha' => cases hsame.symm.trans ha'

end

/-! ### Traversals -/

/-- A candidate with one chain is a report of the search. -/
theorem Outcome.mem_candidates_iff_report {os : List Outcome} {id : SuggestionId} {chain : Chain} :
    ⟨id, [chain]⟩ ∈ candidates os ↔ .report id chain ∈ os := by
  rw [mem_candidates]
  constructor
  · rintro ⟨id', chain', hreport, heq⟩
    cases heq
    exact hreport
  · exact fun hreport => ⟨id, chain, hreport, rfl⟩

/-- The traversal `T` of a rule ends as `T₀` does. It finds no other tokens, and covers each token
of `T₀` by the token itself or by a rule inside the first one that is to be reported. -/
structure Traversal.Condenses (T₀ : Traversal) (reported : List RuleIndex) (T : Traversal) :
    Prop where
  reachedEnd_eq : T.reachedEnd = T₀.reachedEnd
  token : ∀ t chain, ⟨.token t, [chain]⟩ ∈ T.found → ⟨.token t, [chain]⟩ ∈ T₀.found
  covers : ∀ t chain, ⟨.token t, [chain]⟩ ∈ T₀.found → ⟨.token t, [chain]⟩ ∈ T.found ∨
    ∃ i x, 1 ≤ i ∧ chain[i]? = some x ∧ x ∈ reported ∧ ⟨.rule x, [chain.take i]⟩ ∈ T.found

/-- What condenses in a search condenses in the traversal of the rule. -/
theorem Condenses.traversal {reported : List RuleIndex} {os os' : List Outcome}
    (h : Condenses reported os os') (r : RuleIndex) :
    (Traversal.ofOutcomes (os.map (Outcome.within r))).Condenses reported
      (.ofOutcomes (os'.map (Outcome.within r))) where
  reachedEnd_eq := by
    rw [Bool.eq_iff_iff]
    show reachesEnd _ = true ↔ reachesEnd _ = true
    simp only [reachesEnd, List.contains_iff_mem, done_mem_map_within, h.done_iff]
  token t chain ht := by
    rw [Traversal.ofOutcomes, mem_candidates_iff_report] at ht ⊢
    exact (h.within r).token t chain ht
  covers t chain ht := by
    simp only [Traversal.ofOutcomes, mem_candidates_iff_report] at ht ⊢
    -- The first rule is open before the caret, so a rule that covers the token is further inside.
    obtain ⟨c, rfl, hc⟩ := report_mem_map_within.mp ht
    rcases h.covers t c hc with hc | ⟨i, x, hi, hx, hreport⟩
    · exact Or.inl (report_mem_map_within.mpr ⟨c, rfl, hc⟩)
    · exact Or.inr ⟨i + 1, x, Nat.le_add_left 1 i, hi, hx,
        report_mem_map_within.mpr ⟨_, rfl, hreport⟩⟩

/-- Whatever rules are to be reported, the traversal of a rule finds the same tokens as if there
were none, but for those in whose place a rule of their chain is found that is to be reported and is
not the first one of the chain. Both traversals can be complete for the same tokens. This holds
without a table of first tokens and with the one of the network. -/
theorem reporting_loses_nothing {s : Source} {g : Grammar} (h : s.build = .ok g)
    (hsize : s.numbering.size < 2 ^ 31 - 2) (reported : List RuleIndex) (r : RuleIndex)
    (w : List TokenType) :
    ∃ f, Ends (fun limit => FirstTokens.ofNetwork g.recognizer.network limit) f ∧
      ∀ table ∈ [none, some f], ∃ T T₀,
        Ends (fun limit => traverse g.recognizer.network ⟨w.toArray⟩ ⟨reported, [], table⟩ limit r)
          T ∧
        Ends (fun limit => traverse g.recognizer.network ⟨w.toArray⟩ ⟨[], [], table⟩ limit r) T₀ ∧
        T₀.Condenses reported T := by
  have hwf := Source.wellFormed_of_build h hsize
  rcases Nat.lt_or_ge r s.rules.length with hr | hr
  · obtain ⟨f, os, os', hf, hdescribes, hos, hos', hT, hT'⟩ :=
      Source.exists_searches h hsize reported hr w
    obtain ⟨f₀, os₀, os₀', hf₀, -, hos₀, hos₀', hT₀, hT₀'⟩ :=
      Source.exists_searches h hsize [] hr w
    -- The table does not depend on the rules that are to be reported.
    obtain rfl := hf₀.unique hf
    have hplain : Options.answers ⟨[], [], none⟩ f₀.isNullable = noAnswers :=
      Options.answers_none f₀.isNullable
    rw [hplain] at hos₀
    refine ⟨f₀, hf, fun table htable => ?_⟩
    rcases List.mem_pair.mp htable with rfl | rfl
    · exact ⟨_, _, hT, hT₀, (hos₀.condenses hwf hdescribes hos).traversal r⟩
    · exact ⟨_, _, hT', hT₀', (hos₀'.condenses_of_table hwf hdescribes hos').traversal r⟩
  · -- A rule that does not exist leads to nothing.
    obtain ⟨f, hf, -⟩ := FirstTokens.ofNetwork_ends hwf (Source.realizes_of_build h hsize)
    have hempty := fun options => Source.traverse_ends_of_length_le h hsize hr ⟨w.toArray⟩ options
    refine ⟨f, hf, fun table _ => ⟨.empty, .empty, hempty _, hempty _, rfl, fun _ _ ht => ht, ?_⟩⟩
    intro t chain ht
    cases ht

/-- At the start of a list, sums are reported as a whole. Then `x`, which is found in a sum
otherwise, is found as before or covered by the sum. -/
theorem sum_covers_symbols : ∃ g, productGrammar.build = .ok g ∧
    productGrammar.numbering.size < 2 ^ 31 - 2 ∧ ∃ T T₀,
      Ends (fun limit => traverse g.recognizer.network ⟨#[]⟩ ⟨[1], [], none⟩ limit 0) T ∧
      Ends (fun limit => traverse g.recognizer.network ⟨#[]⟩ ⟨[], [], none⟩ limit 0) T₀ ∧
      ⟨.token 2, [[0, 1]]⟩ ∈ T₀.found ∧
      (⟨.token 2, [[0, 1]]⟩ ∈ T.found ∨ ⟨.rule 1, [[0]]⟩ ∈ T.found) ∧
      T.reachedEnd = T₀.reachedEnd := by
  obtain ⟨g, hg⟩ := exists_build_productGrammar
  have hsize := size_numbering_productGrammar
  obtain ⟨f, -, hall⟩ := reporting_loses_nothing hg hsize [1] 0 []
  obtain ⟨T, T₀, hT, hT₀, hend, -, hcovers⟩ := hall none List.mem_cons_self
  obtain ⟨os, hos, hends⟩ := Source.traverse_ends hg hsize (r := 0) (by decide) []
  obtain rfl := hends.unique hT₀
  -- A derivation of a list waits for `x` in the sum that it begins with.
  have hawaits : Awaits productGrammar.definitions (.rule 0 0) [] [0, 1] 2 :=
    .rule (.plain rfl (.seqHead (.ref (by decide)
      (.rule (.primary rfl (.alt List.mem_cons_self (.terminal (by decide))))))))
  have hfound : ⟨.token 2, [[0, 1]]⟩ ∈ (Traversal.ofOutcomes os).found :=
    (hos.mem_candidates_iff _).mpr ⟨2, [0, 1], rfl, hawaits⟩
  refine ⟨g, hg, hsize, T, _, hT, hT₀, hfound, ?_, hend⟩
  refine (hcovers 2 [0, 1] hfound).imp_right ?_
  rintro ⟨i, x, hi, hx, hmem, hreport⟩
  rw [List.mem_singleton.mp hmem] at hx hreport
  match i with
  | 1 => exact hreport

end Caret
