import Caret.Proofs.Traversal

/-!
# `Caret.Proofs.Suggestions`: suggestions are derivations, in authoring order

A traversal of an accepted grammar without any options finds exactly what can come next
(`traverse_finds_derivations`): a token type is found below a chain of rules if a leftmost
derivation that has read the tokens waits for it there, and the end is reached if the rule derives
the tokens. The candidates come in the order in which a backtracking search through the grammar
tries its ways, and as often as it comes upon them (`traverse_in_authoring_order`).

The statements speak of the grammar as it is written. A traversal ends with the outcomes of the
search through it (`Source.traverse_ends`), because resolving names does not change a search.
-/

set_option autoImplicit false

namespace Caret

namespace Source

variable {s : Source} {g : Grammar}

/-- Rules keep their positions when names are resolved. -/
theorem length_rules (h : s.build = .ok g) : g.rules.length = s.rules.length :=
  (mapM_resolve_spec (build_spec h).1).1

/-- A traversal without options ends with the outcomes of the search through the grammar as it is
written. -/
theorem traverse_ends (h : s.build = .ok g) (hsize : s.numbering.size < 2 ^ 31 - 2)
    {r : RuleIndex} (hr : r < s.rules.length) (w : List TokenType) :
    ∃ os, Enumerates s.definitions noAnswers (.rule r 0) w os ∧
      Ends (fun limit => traverse g.recognizer.network ⟨w.toArray⟩ .none limit r)
        (.ofOutcomes os) := by
  have hwf := wellFormed_of_build h hsize
  have hn := realizes_of_build h hsize
  have hr' : r < g.rules.length := (length_rules h).symm ▸ hr
  obtain ⟨nullable, -, bound, hsettled⟩ := Setting.ofOptions_ends hwf hn
  obtain ⟨os, hos⟩ := hwf.exists_enumerates_body (fair_noAnswers _) hr' w
  -- A search without options is one whose answers ask nothing about nullability.
  rw [← Options.answers_none nullable] at hos
  have hends := traverse_of_enumerates hn (fun limit hlimit => hsettled limit hlimit _ .none) rfl
    hr' hos
  rw [Options.answers_none] at hos
  have hrule : Enumerates (.ofRules g.rules s.tokenUniverse) noAnswers (.rule r 0) w _ :=
    .entered rfl hos
  -- The search is carried over from the resolved rules to those that are written.
  exact ⟨_, hrule.of_resolved (resolves_of_build h hsize) .rule, hends⟩

/-- A rule that does not exist derives nothing. -/
theorem not_yields_of_length_le {r : RuleIndex} (hr : s.rules.length ≤ r) {level : Int}
    {w : List TokenType} : ¬ Yields s.definitions (.rule r level) w := by
  have hnone : s.definitions.body r = none := by simp [definitions, hr]
  intro h
  cases h with
  | rule h =>
      cases h with
      | plain hbody _ => rw [hnone] at hbody; cases hbody
      | precedence hbody _ _ => rw [hnone] at hbody; cases hbody

/-- Nor does it wait for anything. -/
theorem not_awaits_of_length_le {r : RuleIndex} (hr : s.rules.length ≤ r) {level : Int}
    {w : List TokenType} {c : Chain} {t : TokenType} :
    ¬ Awaits s.definitions (.rule r level) w c t := by
  have hnone : s.definitions.body r = none := by simp [definitions, hr]
  intro h
  cases h with
  | rule h =>
      cases h with
      | plain hbody _ => rw [hnone] at hbody; cases hbody
      | primary hbody _ => rw [hnone] at hbody; cases hbody
      | operators hbody _ _ => rw [hnone] at hbody; cases hbody

/-- What a rule waits for as it is written, it waits for after names are resolved. -/
theorem awaits_resolved (h : s.build = .ok g) (hsize : s.numbering.size < 2 ^ 31 - 2)
    {r : RuleIndex} (hr : r < g.rules.length) {w : List TokenType} {c : Chain} {t : TokenType}
    (hawaits : Awaits s.definitions (.rule r 0) w c t) :
    Awaits (.ofRules g.rules s.tokenUniverse) (.rule r 0) w c t := by
  -- One search stands for the rules as they are written and after names are resolved.
  have hwf := wellFormed_of_build h hsize
  obtain ⟨os, hos⟩ := hwf.exists_enumerates_rule (fair_noAnswers _) hr 0 w
  have hwritten := hos.of_resolved (resolves_of_build h hsize) .rule
  have hreport : .report (.token t) c ∈ os := (hwritten.offers _ _).mpr ⟨t, rfl, hawaits⟩
  obtain ⟨t', heq, hawaits'⟩ := (hos.offers _ _).mp hreport
  cases heq
  exact hawaits'

/-- A rule that does not exist has no start. -/
theorem start?_eq_none (h : s.build = .ok g) (hsize : s.numbering.size < 2 ^ 31 - 2)
    {r : RuleIndex} (hr : s.rules.length ≤ r) : g.recognizer.network.start? r = none := by
  rw [Network.start?, Array.getElem?_eq_none_iff, (realizes_of_build h hsize).count_eq,
    length_rules h]
  exact hr

/-- A traversal from a rule that does not exist finds nothing. -/
theorem traverse_ends_of_length_le (h : s.build = .ok g) (hsize : s.numbering.size < 2 ^ 31 - 2)
    {r : RuleIndex} (hr : s.rules.length ≤ r) (stream : TokenStream) (options : Options) :
    Ends (fun limit => traverse g.recognizer.network stream options limit r) .empty := by
  refine ⟨0, fun limit _ => ?_⟩
  simp only [traverse, Traversal.run, Setting.ofOptions, start?_eq_none h hsize hr]

end Source

/-! ### Traversals of accepted grammars -/

/-- Lists of products of sums, for instance `x * ( x , x ) + x`. -/
def productGrammar : Source where
  rules := [
    ⟨"list", .plain (.seq [.rule "sum",
      .star (.seq [.terminal (.one (.literal ",")), .rule "sum"]) true])⟩,
    ⟨"sum", .precedence
      [.terminal (.one (.literal "x")),
        .seq [.terminal (.one (.literal "(")), .rule "list", .terminal (.one (.literal ")"))]]
      [.terminal (.one (.literal "*")), .terminal (.one (.literal "+"))]⟩]
  lexerRules := []

/-- The grammar is accepted. -/
theorem exists_build_productGrammar : ∃ g, productGrammar.build = .ok g := by
  have hok : productGrammar.build.isOk = true := by cbv
  cases hbuild : productGrammar.build with
  | ok g => exact ⟨g, rfl⟩
  | error e =>
      rw [hbuild] at hok
      cases hok

/-- Its tokens can be numbered. -/
theorem size_numbering_productGrammar : productGrammar.numbering.size < 2 ^ 31 - 2 := by
  decide

/-- A traversal finds what can come next: the token types that derivations wait for, each below the
rules that are open, and whether the tokens can be all of the input. -/
theorem traverse_finds_derivations {s : Source} {g : Grammar} (h : s.build = .ok g)
    (hsize : s.numbering.size < 2 ^ 31 - 2) (r : RuleIndex) (w : List TokenType) :
    ∃ T, Ends (fun limit => traverse g.recognizer.network ⟨w.toArray⟩ .none limit r) T ∧
      (∀ c, c ∈ T.found ↔
        ∃ t chain, c = ⟨.token t, [chain]⟩ ∧ Awaits s.definitions (.rule r 0) w chain t) ∧
      (T.reachedEnd = true ↔ Yields s.definitions (.rule r 0) w) := by
  rcases Nat.lt_or_ge r s.rules.length with hr | hr
  · obtain ⟨os, hos, hends⟩ := Source.traverse_ends h hsize hr w
    exact ⟨.ofOutcomes os, hends, hos.mem_candidates_iff, hos.reachesEnd_iff⟩
  · -- A rule that does not exist derives nothing, and nothing is found.
    refine ⟨.empty, Source.traverse_ends_of_length_le h hsize hr _ _, fun c => ⟨?_, ?_⟩, ?_, ?_⟩
    · intro hc
      cases hc
    · rintro ⟨t, chain, -, hawaits⟩
      exact absurd hawaits (Source.not_awaits_of_length_le hr)
    · intro hend
      cases hend
    · intro hyields
      exact absurd hyields (Source.not_yields_of_length_le hr)

/-- A list that begins with `x *`. -/
theorem product_finds_derivations : ∃ g, productGrammar.build = .ok g ∧
    productGrammar.numbering.size < 2 ^ 31 - 2 ∧
    ∃ T, Ends (fun limit => traverse g.recognizer.network ⟨#[2, 5]⟩ .none limit 0) T ∧
      (∀ c, c ∈ T.found ↔ ∃ t chain, c = ⟨.token t, [chain]⟩ ∧
        Awaits productGrammar.definitions (.rule 0 0) [2, 5] chain t) ∧
      (T.reachedEnd = true ↔ Yields productGrammar.definitions (.rule 0 0) [2, 5]) := by
  obtain ⟨g, hg⟩ := exists_build_productGrammar
  exact ⟨g, hg, size_numbering_productGrammar,
    traverse_finds_derivations hg size_numbering_productGrammar 0 [2, 5]⟩

/-- The candidates are those of a search that tries the ways through the grammar in the order in
which they are written. The search has exactly one list of outcomes. -/
theorem traverse_in_authoring_order {s : Source} {g : Grammar} (h : s.build = .ok g)
    (hsize : s.numbering.size < 2 ^ 31 - 2) {r : RuleIndex} (hr : r < s.rules.length)
    (w : List TokenType) :
    ∃ os T, (∀ os', Enumerates s.definitions noAnswers (.rule r 0) w os' ↔ os' = os) ∧
      Ends (fun limit => traverse g.recognizer.network ⟨w.toArray⟩ .none limit r) T ∧
      T.found = Outcome.candidates os := by
  obtain ⟨os, hos, hends⟩ := Source.traverse_ends h hsize hr w
  refine ⟨os, .ofOutcomes os, fun os' => ⟨fun hos' => hos'.deterministic hos, ?_⟩, hends, rfl⟩
  rintro rfl
  exact hos

/-- A list that begins with `x *`. -/
theorem product_in_authoring_order : ∃ g, productGrammar.build = .ok g ∧
    productGrammar.numbering.size < 2 ^ 31 - 2 ∧ 0 < productGrammar.rules.length ∧
    ∃ os T, (∀ os', Enumerates productGrammar.definitions noAnswers (.rule 0 0) [2, 5] os' ↔
        os' = os) ∧
      Ends (fun limit => traverse g.recognizer.network ⟨#[2, 5]⟩ .none limit 0) T ∧
      T.found = Outcome.candidates os := by
  obtain ⟨g, hg⟩ := exists_build_productGrammar
  exact ⟨g, hg, size_numbering_productGrammar, by decide,
    traverse_in_authoring_order hg size_numbering_productGrammar (by decide) [2, 5]⟩

end Caret
