import Caret.Completion.Basic
import Caret.Proofs.Agreement
import Caret.Proofs.Transparency

/-!
# `Caret.Proofs.Completion`: completing with and without a table of first tokens

A completion names the ids that a traversal finds, each where it was found first. With a table of
first tokens, calls at the caret are answered by the table, and this can change the names:

* What a rule can start with is put out in one piece, before anything behind the rule. Without the
  table, a rule that can be left before something is found in it is left first.
* A rule that is reported as a whole is found below a rule that the table answers for only if
  something is found in it.
* The table joins findings of one id before it is known which of them lie in a rule that is reported
  as a whole, so that rule may be found in place of a token that comes later.

`table_changes_names` has examples. `completions_agree` states that nothing else happens: the names
are the same in some order, but for rules that are reported as a whole and start with nothing. If no
rule is reported as a whole and nothing is found behind an end of a rule, then the names are the
same list.
-/

set_option autoImplicit false

namespace Caret

open Outcome

/-! ### Searches with and without the table -/

section

variable {rules : List (Rule Label RuleIndex)} {alphabet : Universe} {f : FirstTokens}
  {reported : List RuleIndex} {r : RuleIndex} {v : List TokenType} {answers : Answers}
  {os os' : List Outcome} {R : List SuggestionId → List SuggestionId → Prop}

/-- Operators of a well-formed grammar are not nullable. -/
theorem WellFormed.operatorsRead (h : WellFormed rules alphabet)
    (hfair : answers.Fair (knownNullable rules)) :
    OperatorsRead (.ofRules rules alphabet) answers := by
  intro r primaries operators hb e he os hos u hu
  obtain rfl := List.suffix_nil.mp (hos.suffix hu)
  have hnullable := Expr.nullable_of_phrase (hos.nullable_of_done hfair hu)
  rw [(h.sound_precedence hb).2.2 e he] at hnullable
  cases hnullable

/-- What the operators of each rule start with can be chosen for all rules at once. It is what a
search through them reports. -/
theorem WellFormed.exists_startsOperators (h : WellFormed rules alphabet)
    (hfair : answers.Fair (knownNullable rules)) :
    ∃ owed, StartsOperators (.ofRules rules alphabet) answers owed := by
  have hrule : ∀ r, ∃ is, ∀ primaries operators,
      (Definitions.ofRules rules alphabet).body r = some (.precedence primaries operators) →
        ∃ os, Enumerates (.ofRules rules alphabet) answers (.loop r 0 0) [] os ∧
          is = (reports os).map Prod.fst := by
    intro r
    -- A rule without operators owes nothing. For the others there is a search.
    by_cases hloop : ∃ os, Enumerates (.ofRules rules alphabet) answers (.loop r 0 0) [] os
    · obtain ⟨os, hos⟩ := hloop
      exact ⟨_, fun _ _ _ => ⟨os, hos, rfl⟩⟩
    · refine ⟨[], fun primaries operators hb => absurd ?_ hloop⟩
      exact ((h.allGrounded []).loop r 0 0 primaries operators hb).exists_enumerates hfair
  choose owed howed using hrule
  exact ⟨owed, howed⟩

/-- With the table a search agrees with the search without it, if calls at the caret and at level
zero do. -/
theorem Enumerates.agree_of_table (h : WellFormed rules alphabet) (hf : f.Describes rules alphabet)
    (hR : Lenient R)
    (hcaret : ∀ r os, r < rules.length → r ∉ reported → Enumerates (.ofRules rules alphabet)
      (Options.answers ⟨reported, [], none⟩ f.isNullable) (.rule r 0) [] os →
        Agree R [] os (Answer.outcomes ⟨f.starts reported r, f.isNullable r⟩ []))
    (hos : Enumerates (.ofRules rules alphabet)
      (Options.answers ⟨reported, [], none⟩ f.isNullable) (.body r 0) v os)
    (hos' : Enumerates (.ofRules rules alphabet)
      (Options.answers ⟨reported, [], some f⟩ f.isNullable) (.body r 0) v os') :
    Agree R [] os os' := by
  have hfair : (Options.answers ⟨reported, [], none⟩ f.isNullable).Fair (knownNullable rules) :=
    Options.fair_answers fun r hr => hf.knownNullable h hr
  have hread := h.operatorsRead hfair
  obtain ⟨owed, howed⟩ := h.exists_startsOperators hfair
  refine Enumerates.related_by (relatingBy_agree hR howed hread) ?_ ?_ hos (List.suffix_refl v) hos'
  · -- Without the table only rules that are reported as a whole are answered, as with the table.
    intro v r level a os' _ ha hos'
    cases v with
    | cons t v => cases ha
    | nil =>
        by_cases hr : r ∈ reported
        · have hanswer : Options.answers ⟨reported, [], some f⟩ f.isNullable [] r =
              some ⟨[(.rule r, [])], f.isNullable r⟩ := if_pos hr
          cases (if_pos hr).symm.trans ha
          cases hos' with
          | entered ha' _ => cases hanswer.symm.trans ha'
          | answered ha' =>
              cases hanswer.symm.trans ha'
              exact .refl hR _ _
        · cases (if_neg hr).symm.trans ha
  · intro v r level os os' _ ha hbody ih hos'
    have hr := lt_of_enumerates_body hbody
    have hrule := Enumerates.entered ha hbody
    cases v with
    | nil =>
        have hnot : r ∉ reported := by
          intro hmem
          cases (if_pos hmem).symm.trans ha
        have hanswer : Options.answers ⟨reported, [], some f⟩ f.isNullable [] r =
            some ⟨f.starts reported r, f.isNullable r⟩ := Options.answers_of_table hnot rfl
        cases hos' with
        | entered ha' _ => cases hanswer.symm.trans ha'
        | answered ha' =>
            cases hanswer.symm.trans ha'
            -- The table answers for level zero.
            obtain ⟨os₀, hos₀⟩ := h.exists_enumerates_rule hfair hr 0 []
            exact (hrule.agree_zero hR howed hread hos₀).trans hR (hcaret r os₀ hr hnot hos₀)
    | cons t v =>
        -- In front of a token the table only leaves out calls that come to nothing.
        cases hos' with
        | entered _ hbody' => exact (ih _ hbody').within r
        | answered ha' =>
            by_cases hmay : f.mayStartWith r t = true
            · cases (if_pos hmay).symm.trans ha'
            · cases (if_neg hmay).symm.trans ha'
              rw [eq_nil_of_pruned h hf hr hmay (fun _ => rfl) hrule]
              exact .refl hR _ _

/-! ### Which ids are found -/

/-- Outcomes agree up to lost ids if they have the same ends and the same reports, but for reports
of such ids. -/
theorem agree_retains {lost : SuggestionId → Prop}
    (hdone : ∀ u, .done u ∈ os ↔ .done u ∈ os')
    (hkept : ∀ id chain, .report id chain ∈ os' → .report id chain ∈ os)
    (hlost : ∀ id chain, .report id chain ∈ os → .report id chain ∈ os' ∨ lost id) :
    Agree (Retains lost) [] os os' := by
  refine ⟨hdone, fun g g' hg _ => ⟨fun id hid => ?_, fun id hid => ?_⟩⟩
  · refine mem_idsThen.mpr ?_
    -- An id comes from a report or from behind an end. The ends are the same, and what comes behind
    -- them compares well.
    rcases mem_idsThen.mp hid with ⟨chain, hreport⟩ | ⟨u, hu, hid⟩
    · exact Or.inl ⟨chain, hkept id chain hreport⟩
    · have hu' := (hdone u).mpr hu
      exact Or.inr ⟨u, hu', (hg u hu').1 id hid⟩
  · rcases mem_idsThen.mp hid with ⟨chain, hreport⟩ | ⟨u, hu, hid⟩
    · exact (hlost id chain hreport).imp_left fun hreport =>
        mem_idsThen.mpr (Or.inl ⟨chain, hreport⟩)
    · refine ((hg u hu).2 id hid).imp_left fun hid => mem_idsThen.mpr (Or.inr ?_)
      exact ⟨u, (hdone u).mp hu, hid⟩

/-- With the table the same ids are found, but for rules that are reported as a whole and start with
nothing. -/
theorem Enumerates.retains_of_table (h : WellFormed rules alphabet)
    (hf : f.Describes rules alphabet)
    (hos : Enumerates (.ofRules rules alphabet)
      (Options.answers ⟨reported, [], none⟩ f.isNullable) (.body r 0) v os)
    (hos' : Enumerates (.ofRules rules alphabet)
      (Options.answers ⟨reported, [], some f⟩ f.isNullable) (.body r 0) v os') :
    Agree (Retains fun id => ∃ r, id = .rule r ∧ Bare rules alphabet reported r) [] os os' := by
  refine hos.agree_of_table h hf (lenient_retains _) ?_ hos'
  intro r os hr hnot hos
  -- The entry of the rule comes from a search that reports no rule as a whole. It is cut at the
  -- rules that are reported, which leaves out the bare ones.
  obtain ⟨ps, hps⟩ := h.exists_enumerates_rule (fair_noAnswers _) hr 0 []
  have hholds : f.Holds r ps := hf.entry_eq r ps hr hps
  have htrims := hps.trimsTo h hf hos (Or.inl rfl)
  refine agree_retains (fun u => ?_) (fun id chain hreport => ?_) fun id chain hreport => ?_
  · rw [Answer.done_mem_outcomes, hholds.passes_iff hps, htrims.done_iff]
  · rw [Answer.report_mem_outcomes, hholds.mem_starts] at hreport
    exact htrims.1 _ hreport
  · rw [Answer.report_mem_outcomes, hholds.mem_starts]
    refine (htrims.2 _ hreport).imp_right ?_
    rintro ⟨r', chain', heq, hbare⟩
    exact ⟨r', (Outcome.report.inj heq).1, hbare⟩

/-! ### The order of ids -/

/-- Nothing is reported behind an end. -/
def EndsLast : List Outcome → Prop
  | [] => True
  | .report _ _ :: os => EndsLast os
  | .done _ :: os => reports os = []

/-- Where nothing is reported, nothing is reported behind an end. -/
theorem endsLast_of_reports_eq_nil (h : reports os = []) : EndsLast os := by
  induction os with
  | nil => trivial
  | cons o os ih =>
      cases o with
      | report id chain => cases h
      | done u => exact h

/-- If nothing is reported behind an end, all reports can be made first, and then the ends. -/
theorem EndsLast.idsThen_rel (hR : Lenient R) (h : EndsLast os)
    (hcaret : ∀ u, .done u ∈ os → u = []) (g : List TokenType → List SuggestionId) :
    R (idsThen os g) ((reports os).map Prod.fst ++ if .done [] ∈ os then g [] else []) := by
  induction os with
  | nil => exact hR.refl []
  | cons o os ih =>
      have hcaret' : ∀ u, .done u ∈ os → u = [] := fun u hu => hcaret u (List.mem_cons_of_mem _ hu)
      cases o with
      | report id chain =>
          have hrest := ih h hcaret'
          have hmem : .done [] ∈ Outcome.report id chain :: os ↔ .done [] ∈ os := by simp
          simp only [hmem]
          show R ([id] ++ idsThen os g) ([id] ++ ((reports os).map Prod.fst ++ _))
          exact hR.append (hR.refl [id]) hrest
      | done u =>
          obtain rfl := hcaret u List.mem_cons_self
          have hnone : reports os = [] := h
          have hreports : reports (.done [] :: os) = [] := hnone
          have hrest := ih (endsLast_of_reports_eq_nil hnone) hcaret'
          rw [hnone] at hrest
          rw [hreports, if_pos List.mem_cons_self, idsThen_done]
          -- Further ends only repeat what comes behind the first one.
          have hrepeat : R (g [] ++ if .done [] ∈ os then g [] else []) (g []) := by
            split
            · have honce := hR.once (g []) []
              rwa [List.append_nil] at honce
            · rw [List.append_nil]
              exact hR.refl _
          exact hR.trans (hR.append (hR.refl (g [])) hrest) hrepeat

/-- Joining findings keeps the order in which ids come up for the first time. -/
theorem sameOrder_findings (xs : List Finding) :
    SameOrder (xs.map Prod.fst) ((findings (noteAll [] xs)).map Prod.fst) := by
  intro seen
  -- Candidates without chains stand for the ids that were seen before.
  have hseen : (seen.map fun id => (⟨id, []⟩ : Candidate)).map Candidate.id = seen := by
    simp [Function.comp_def]
  rw [← hseen, ← map_id_noteAll, ← map_id_noteAll, noteAll_findings]

/-- If nothing is reported behind an end of a rule, the table does not change the order. -/
theorem Enumerates.sameOrder_of_table (h : WellFormed rules alphabet)
    (hf : f.Describes rules alphabet)
    (hlast : ∀ r os, r < rules.length →
      Enumerates (.ofRules rules alphabet) noAnswers (.rule r 0) [] os → EndsLast os)
    (hos : Enumerates (.ofRules rules alphabet)
      (Options.answers ⟨[], [], none⟩ f.isNullable) (.body r 0) v os)
    (hos' : Enumerates (.ofRules rules alphabet)
      (Options.answers ⟨[], [], some f⟩ f.isNullable) (.body r 0) v os') :
    Agree SameOrder [] os os' := by
  refine hos.agree_of_table h hf lenient_sameOrder ?_ hos'
  intro r os hr _ hos
  have hplain : Options.answers ⟨[], [], none⟩ f.isNullable = noAnswers :=
    Options.answers_none f.isNullable
  rw [hplain] at hos
  -- The entry of the rule has the findings of this search, joined, and then at most one end.
  have hholds : f.Holds r os := hf.entry_eq r os hr hos
  refine ⟨fun u => by rw [Answer.done_mem_outcomes, hholds.passes_iff hos], fun g g' hg _ => ?_⟩
  have hreorder := (hlast r os hr hos).idsThen_rel lenient_sameOrder
    (fun u hu => List.suffix_nil.mp (hos.suffix hu)) g
  have hbehind : SameOrder (if .done [] ∈ os then g [] else [])
      (if .done [] ∈ os then g' [] else []) := by
    split
    · rename_i hend
      exact hg [] hend
    · exact lenient_sameOrder.refl []
  have htable : idsThen (Answer.outcomes ⟨f.starts [] r, f.isNullable r⟩ []) g' =
      (findings (noteAll [] (reports os))).map Prod.fst ++ if .done [] ∈ os then g' [] else [] := by
    show idsThen (ofFindings (f.starts [] r) ++ _) g' = _
    rw [idsThen_append, idsThen_ofFindings, hholds.starts_nil]
    simp only [hholds.isNullable_iff]
    split
    · exact congrArg _ (List.append_nil _)
    · rfl
  rw [htable]
  exact lenient_sameOrder.trans hreorder
    (lenient_sameOrder.append (sameOrder_findings (reports os)) hbehind)

end

/-! ### Completions of accepted grammars -/

/-- The ids of the suggestions. -/
def Completion.ids (c : Completion) : List SuggestionId := c.suggestions.map Suggestion.id

namespace Recognizer

/-- What is suggested of the findings of a traversal. -/
def completion (r : Recognizer) (source : TokenSource) (config : Config) (t : Traversal) :
    Completion :=
  ⟨((merge t.found).filter (wanted source config)).map r.suggestion, t.stats⟩

/-- The name of what is suggested. -/
def nameOf (r : Recognizer) (id : SuggestionId) : String := (r.suggestion ⟨id, []⟩).name

variable (r : Recognizer) (source : TokenSource) (config : Config)

/-- The names are those of the ids. Chains do not enter into them. -/
theorem names_completion (t : Traversal) :
    (r.completion source config t).names = (r.completion source config t).ids.map r.nameOf := by
  simp only [Completion.names, Completion.ids, completion, List.map_map]
  rfl

/-- The ids that are suggested come up in the order of the findings. -/
theorem ids_completion (rule : RuleIndex) (os : List Outcome) :
    (r.completion source config (.ofOutcomes (os.map (within rule)))).ids =
      (addIds [] (idsThen os fun _ => [])).filter fun id => wanted source config ⟨id, []⟩ := by
  have hids : (merge (candidates (os.map (within rule)))).map Candidate.id =
      addIds [] (idsThen os fun _ => []) := by
    rw [candidates_eq, merge_map_candidate, map_id_noteAll, ← idsThen_nil, idsThen_map_within]
    rfl
  rw [← hids, List.filter_map, Completion.ids, completion, List.map_map]
  rfl

/-- What is suggested was found and is wanted. -/
theorem mem_ids_completion {rule : RuleIndex} {os : List Outcome} {id : SuggestionId} :
    id ∈ (r.completion source config (.ofOutcomes (os.map (within rule)))).ids ↔
      id ∈ idsThen os (fun _ => []) ∧ wanted source config ⟨id, []⟩ = true := by
  rw [ids_completion, List.mem_filter, mem_addIds, or_iff_right List.not_mem_nil]

/-- Joined candidates have different ids, and leaving some of them out does not change that. -/
theorem nodup_ids_of_joined {t : Traversal} (h : Joined (merge t.found)) :
    (r.completion source config t).ids.Nodup := by
  -- Only candidates that are not wanted are left out.
  have hsub : ((merge t.found).filter (wanted source config)).Sublist (merge t.found) :=
    List.filter_sublist
  rw [Completion.ids, completion, List.map_map]
  exact h.nodup.sublist (hsub.map Candidate.id)

/-- Nothing is suggested twice. -/
theorem nodup_ids_completion (t : Traversal) (os : List Outcome)
    (ht : t.found = candidates os) : (r.completion source config t).ids.Nodup := by
  refine nodup_ids_of_joined r source config ?_
  rw [ht, candidates_eq]
  exact joined_merge _

end Recognizer

namespace Source

variable {s : Source} {g : Grammar}

/-- The searches that stand for the traversals with and without a table. -/
theorem exists_searches (h : s.build = .ok g) (hsize : s.numbering.size < 2 ^ 31 - 2)
    (reported : List RuleIndex) {r : RuleIndex} (hr : r < s.rules.length) (w : List TokenType) :
    ∃ f os os', Ends (fun limit => FirstTokens.ofNetwork g.recognizer.network limit) f ∧
      f.Describes g.rules s.tokenUniverse ∧
      Enumerates (.ofRules g.rules s.tokenUniverse)
        (Options.answers ⟨reported, [], none⟩ f.isNullable) (.body r 0) w os ∧
      Enumerates (.ofRules g.rules s.tokenUniverse)
        (Options.answers ⟨reported, [], some f⟩ f.isNullable) (.body r 0) w os' ∧
      Ends (fun limit => traverse g.recognizer.network ⟨w.toArray⟩ ⟨reported, [], none⟩ limit r)
        (.ofOutcomes (os.map (within r))) ∧
      Ends (fun limit => traverse g.recognizer.network ⟨w.toArray⟩ ⟨reported, [], some f⟩ limit r)
        (.ofOutcomes (os'.map (within r))) := by
  have hwf := wellFormed_of_build h hsize
  have hn := realizes_of_build h hsize
  have hr' : r < g.rules.length := (length_rules h).symm ▸ hr
  obtain ⟨f, hends, hf⟩ := FirstTokens.ofNetwork_ends hwf hn
  -- The table and the traversals for single rules agree on which rules are nullable.
  obtain ⟨nullable, hnullable, bound, hsettled⟩ := Setting.ofOptions_ends hwf hn
  have hsame : nullable = f.isNullable := by
    funext r
    rw [Bool.eq_iff_iff, hnullable, hf.isNullable_iff hwf]
  subst hsame
  have hknown : ∀ r, f.isNullable r = true → knownNullable g.rules r = true :=
    fun r hr => hf.knownNullable hwf hr
  have hfair : (Options.answers ⟨reported, [], none⟩ f.isNullable).Fair (knownNullable g.rules) :=
    Options.fair_answers hknown
  have hfair' : (Options.answers ⟨reported, [], some f⟩ f.isNullable).Fair
      (knownNullable g.rules) := Options.fair_answers hknown
  obtain ⟨os, hos⟩ := hwf.exists_enumerates_body hfair hr' w
  obtain ⟨os', hos'⟩ := hwf.exists_enumerates_body hfair' hr' w
  exact ⟨f, os, os', hends, hf, hos, hos',
    traverse_of_enumerates hn (fun limit hlimit => hsettled limit hlimit _ _) rfl hr' hos,
    traverse_of_enumerates hn (fun limit hlimit => hsettled limit hlimit _ _) rfl hr' hos'⟩

/-- Once the tokens are known and the traversal ends, there is a completion. -/
theorem complete_eq (h : s.build = .ok g) (hsize : s.numbering.size < 2 ^ 31 - 2) (config : Config)
    (hinitial : config.initialRule < s.rules.length) {input : String} {tokens : List Token}
    (htokens : g.lexer.source.tokenize input = .ok tokens) {limit : Nat} {t : Traversal}
    (ht : g.recognizer.traverse config limit tokens = .ok t) :
    g.complete config limit input = .ok (g.recognizer.completion g.lexer.source config t) := by
  have hr : config.initialRule < g.rules.length := (length_rules h).symm ▸ hinitial
  obtain ⟨start, -, -, hstart, -⟩ :=
    (realizes_of_build h hsize).wired config.initialRule _ (List.getElem?_eq_getElem hr)
  -- The initial rule exists, so it has a start state.
  simp only [Grammar.complete, Recognizer.complete, htokens, hstart, ht]
  rfl

/-- Completions without recovery have the findings of the two searches. -/
theorem exists_completions (h : s.build = .ok g) (hsize : s.numbering.size < 2 ^ 31 - 2)
    {config : Config} (hrecovery : config.recovery = [])
    (hinitial : config.initialRule < s.rules.length) {input : String} {tokens : List Token}
    (htokens : g.lexer.source.tokenize input = .ok tokens) :
    ∃ f w os os', f.Describes g.rules s.tokenUniverse ∧
      Enumerates (.ofRules g.rules s.tokenUniverse)
        (Options.answers ⟨config.reported, [], none⟩ f.isNullable)
        (.body config.initialRule 0) w os ∧
      Enumerates (.ofRules g.rules s.tokenUniverse)
        (Options.answers ⟨config.reported, [], some f⟩ f.isNullable)
        (.body config.initialRule 0) w os' ∧
      ∃ bound, ∀ limit, bound ≤ limit →
        g.complete { config with useFirstTokens := false } limit input =
          .ok (g.recognizer.completion g.lexer.source config
            (.ofOutcomes (os.map (within config.initialRule)))) ∧
        g.complete { config with useFirstTokens := true } limit input =
          .ok (g.recognizer.completion g.lexer.source config
            (.ofOutcomes (os'.map (within config.initialRule)))) := by
  let w := (tokens.filter fun t => config.includeOffChannel || t.isDefaultChannel).map
    Token.tokenType
  obtain ⟨f, os, os', ⟨bound₁, htable⟩, hf, hos, hos', ⟨bound₂, hplain⟩, ⟨bound₃, hspliced⟩⟩ :=
    exists_searches h hsize config.reported hinitial w
  refine ⟨f, w, os, os', hf, hos, hos', max bound₁ (max bound₂ bound₃), fun limit hlimit => ?_⟩
  constructor
  · refine complete_eq h hsize { config with useFirstTokens := false } hinitial htokens ?_
    -- Without the table the traversal runs on the tokens that are looked at.
    show traverse g.recognizer.network ⟨w.toArray⟩ ⟨config.reported, config.recovery, none⟩ limit
      config.initialRule = _
    rw [hrecovery]
    exact hplain limit (by omega)
  · refine complete_eq h hsize { config with useFirstTokens := true } hinitial htokens ?_
    -- With the table it is made first, from the network alone.
    show ((FirstTokens.ofNetwork g.recognizer.network limit).map some >>= fun table =>
      traverse g.recognizer.network ⟨w.toArray⟩ ⟨config.reported, config.recovery, table⟩ limit
        config.initialRule) = _
    have hready : FirstTokens.ofNetwork g.recognizer.network limit = .ok f :=
      htable limit (by omega)
    rw [hready, hrecovery]
    exact hspliced limit (by omega)

end Source

/-- Without recovery, completing an input with a table of first tokens and without one suggests the
same, each id once, but for rules that are reported as a whole and start with nothing: the table
may lose these. So the names are the same in some order, if there are no such rules. They are the
same list, if no rule is reported as a whole and nothing is found behind an end of a rule. -/
theorem completions_agree {s : Source} {g : Grammar} (h : s.build = .ok g)
    (hsize : s.numbering.size < 2 ^ 31 - 2) (config : Config) (hrecovery : config.recovery = [])
    (hinitial : config.initialRule < s.rules.length) {input : String} {tokens : List Token}
    (htokens : g.lexer.source.tokenize input = .ok tokens) :
    ∃ c c' : Completion,
      (∃ bound, ∀ limit, bound ≤ limit →
        g.complete { config with useFirstTokens := false } limit input = .ok c ∧
        g.complete { config with useFirstTokens := true } limit input = .ok c') ∧
      c.ids.Nodup ∧ c'.ids.Nodup ∧ (∀ id ∈ c'.ids, id ∈ c.ids) ∧
      (∀ id ∈ c.ids, id ∉ c'.ids → ∃ r ∈ config.reported, id = .rule r ∧ r < s.rules.length ∧
        ∀ chain t, ¬ Awaits s.definitions (.rule r 0) [] chain t) ∧
      ((∀ r ∈ config.reported, r < s.rules.length →
        ∃ chain t, Awaits s.definitions (.rule r 0) [] chain t) → c'.names.Perm c.names) ∧
      (config.reported = [] →
        (∀ r os, Enumerates s.definitions noAnswers (.rule r 0) [] os → EndsLast os) →
          c'.names = c.names) := by
  have hwf := Source.wellFormed_of_build h hsize
  obtain ⟨f, w, os, os', hf, hos, hos', hends⟩ :=
    Source.exists_completions h hsize hrecovery hinitial htokens
  let c := g.recognizer.completion g.lexer.source config
    (.ofOutcomes (os.map (within config.initialRule)))
  let c' := g.recognizer.completion g.lexer.source config
    (.ofOutcomes (os'.map (within config.initialRule)))
  have hnames : c.names = c.ids.map g.recognizer.nameOf := Recognizer.names_completion ..
  have hnames' : c'.names = c'.ids.map g.recognizer.nameOf := Recognizer.names_completion ..
  have hnodup : c.ids.Nodup := Recognizer.nodup_ids_completion _ _ _ _ _ rfl
  have hnodup' : c'.ids.Nodup := Recognizer.nodup_ids_completion _ _ _ _ _ rfl
  obtain ⟨hkept, hlost⟩ := (hos.retains_of_table hwf hf hos').rel (lenient_retains _)
  have hsub : ∀ id ∈ c'.ids, id ∈ c.ids := by
    intro id hid
    obtain ⟨hfound, hwanted⟩ := (Recognizer.mem_ids_completion ..).mp hid
    exact (Recognizer.mem_ids_completion ..).mpr ⟨hkept id hfound, hwanted⟩
  have hmissing : ∀ id ∈ c.ids, id ∉ c'.ids → ∃ r ∈ config.reported, id = .rule r ∧
      r < s.rules.length ∧ ∀ chain t, ¬ Awaits s.definitions (.rule r 0) [] chain t := by
    intro id hid hid'
    obtain ⟨hfound, hwanted⟩ := (Recognizer.mem_ids_completion ..).mp hid
    -- An id that is missing with the table is one that a search with the table lost, since what is
    -- wanted is the same.
    rcases hlost id hfound with hfound' | ⟨r, rfl, hreported, hr, hbare⟩
    · exact absurd ((Recognizer.mem_ids_completion ..).mpr ⟨hfound', hwanted⟩) hid'
    · exact ⟨r, hreported, rfl, Source.length_rules h ▸ hr, fun chain t hawaits =>
        hbare chain t (Source.awaits_resolved h hsize hr hawaits)⟩
  refine ⟨c, c', hends, hnodup, hnodup', hsub, hmissing, fun hstarts => ?_,
    fun hreported hlast => ?_⟩
  · -- Nothing is missing, and both lists have each id once.
    rw [hnames, hnames']
    refine List.Perm.map _ ((List.perm_ext_iff_of_nodup hnodup' hnodup).mpr fun id => ?_)
    refine ⟨hsub id, fun hid => Decidable.byContradiction fun hid' => ?_⟩
    obtain ⟨r, hr, -, hlt, hnone⟩ := hmissing id hid hid'
    obtain ⟨chain, t, hawaits⟩ := hstarts r hr hlt
    exact hnone chain t hawaits
  · -- The ids come up in the same order, and the names are the names of the ids.
    rw [hreported] at hos hos'
    have hlast' : ∀ r os, r < g.rules.length →
        Enumerates (.ofRules g.rules s.tokenUniverse) noAnswers (.rule r 0) [] os → EndsLast os :=
      fun r os _ hos => hlast r os (hos.of_resolved (Source.resolves_of_build h hsize) .rule)
    have horder := (hos.sameOrder_of_table hwf hf hlast' hos').rel lenient_sameOrder
    have hids : c'.ids = c.ids := by
      show (Recognizer.completion ..).ids = (Recognizer.completion ..).ids
      rw [Recognizer.ids_completion, Recognizer.ids_completion, horder []]
    rw [hnames, hnames', hids]

/-- Lines of sums and products, where each operand may be left out, as in `x * + ;`. -/
def lineGrammar : Source where
  rules := [
    ⟨"line", .plain (.seq [.rule "sum", .terminal (.one (.literal ";"))])⟩,
    ⟨"sum", .precedence [.optional (.terminal (.one (.literal "x"))) true]
      [.terminal (.one (.literal "*")), .terminal (.one (.literal "+"))]⟩]
  lexerRules := []

/-- The grammar is accepted and `x*` has tokens. The witness below needs the two, but not what they
are. -/
theorem exists_tokenize_lineGrammar : ∃ g tokens, lineGrammar.build = .ok g ∧
    g.lexer.source.tokenize "x*" = .ok tokens := by
  have hok : (lineGrammar.build.toOption.bind fun g =>
      (g.lexer.source.tokenize "x*").toOption).isSome = true := by cbv
  cases hbuild : lineGrammar.build with
  | error e =>
      rw [hbuild] at hok
      cases hok
  | ok g =>
      rw [hbuild] at hok
      cases htokens : g.lexer.source.tokenize "x*" with
      | error e =>
          have hnone : (g.lexer.source.tokenize "x*").toOption.isSome = true := hok
          rw [htokens] at hnone
          cases hnone
      | ok tokens => exact ⟨g, tokens, rfl, htokens⟩

section

variable {τ ρ : Type} {d : Definitions τ ρ} {answers : Answers} {a : τ} {t : TokenType}

/-- A terminal of one symbol reports it at the caret. -/
theorem Enumerates.symbol_at_caret (h : d.symbols a = [t]) :
    Enumerates d answers (.expr (.terminal a)) [] [.report (.token t) []] := by
  have hterminal : Enumerates d answers (.expr (.terminal a)) [] (ofSymbols (d.symbols a) []) :=
    .terminal
  rwa [h] at hterminal

/-- An operator of one symbol comes in front of the operators behind it. -/
theorem Enumerates.operator_at_caret {r : RuleIndex} {next : Nat}
    {primaries operators : List (Expr τ ρ)} {os : List Outcome} (h : d.symbols a = [t])
    (hb : d.body r = some (.precedence primaries operators))
    (he : operators[next]? = some (.terminal a))
    (hos : Enumerates d answers (.loop r 0 (next + 1)) [] os) :
    Enumerates d answers (.loop r 0 next) [] (.report (.token t) [] :: os) := by
  have hlt := (List.getElem?_eq_some_iff.mp he).1
  have hnone : ∀ u, Outcome.done u ∉ [Outcome.report (.token t) []] := by simp
  exact .loopMore (f := fun _ => []) (g := fun _ => []) hb he (by omega) (.symbol_at_caret h)
    (fun u hu => absurd hu (hnone u)) (fun u hu => absurd hu (hnone u)) hos

end

/-- What comes at the start of a sum: the letter, an operator, or an end. -/
theorem enumerates_sum : Enumerates lineGrammar.definitions noAnswers (.rule 1 0) []
    [.report (.token 2) [1], .report (.token 3) [1], .report (.token 4) [1], .done []] := by
  have hbody : lineGrammar.definitions.body 1 = some (.precedence
    [.optional (.terminal (.one (.literal "x"))) true]
    [.terminal (.one (.literal "*")), .terminal (.one (.literal "+"))]) := rfl
  have hletter : lineGrammar.definitions.symbols (.one (.literal "x")) = [2] := by decide
  have htimes : lineGrammar.definitions.symbols (.one (.literal "*")) = [3] := by decide
  have hplus : lineGrammar.definitions.symbols (.one (.literal "+")) = [4] := by decide
  have hoperators : Enumerates lineGrammar.definitions noAnswers (.loop 1 0 0) []
      [.report (.token 3) [], .report (.token 4) [], .done []] :=
    .operator_at_caret htimes hbody rfl
      (.operator_at_caret hplus hbody rfl (.loopEnd hbody (by decide)))
  have hprimaries : Enumerates lineGrammar.definitions noAnswers
      (.expr (.alt [.optional (.terminal (.one (.literal "x"))) true])) []
      [.report (.token 2) [], .done []] :=
    .altCons (.optional (.symbol_at_caret hletter)) .altNil
  refine .entered rfl (.precedence (f := fun _ => [.report (.token 3) [], .report (.token 4) [],
    .done []]) hbody hprimaries fun u hu => ?_)
  obtain rfl := List.suffix_nil.mp (hprimaries.suffix hu)
  exact hoperators

/-- What comes at the start of a line: that of a sum, and the semicolon behind an empty sum. -/
theorem enumerates_line : Enumerates lineGrammar.definitions noAnswers (.rule 0 0) []
    [.report (.token 2) [0, 1], .report (.token 3) [0, 1], .report (.token 4) [0, 1],
      .report (.token 1) [0]] := by
  have hsemicolon : lineGrammar.definitions.symbols (.one (.literal ";")) = [1] := by decide
  have hbehind : Enumerates lineGrammar.definitions noAnswers
      (.expr (.seq [.terminal (.one (.literal ";"))])) [] [.report (.token 1) []] :=
    .seqCons (f := fun _ => []) (.symbol_at_caret hsemicolon) fun u hu => by simp at hu
  have hcallee : lineGrammar.definitions.callee "sum" = some 1 := by decide
  refine .entered rfl (.plain rfl (.seqCons (f := fun _ => [.report (.token 1) []])
    (.ref hcallee enumerates_sum) fun u hu => ?_))
  obtain rfl := List.suffix_nil.mp (enumerates_sum.suffix hu)
  exact hbehind

/-- Each rule of the grammar finds all it finds before it can be left. -/
theorem endsLast_lineGrammar {r : RuleIndex} {os : List Outcome}
    (h : Enumerates lineGrammar.definitions noAnswers (.rule r 0) [] os) : EndsLast os := by
  match r with
  | 0 =>
      rw [h.deterministic enumerates_line]
      trivial
  | 1 =>
      rw [h.deterministic enumerates_sum]
      rfl
  | r + 2 =>
      cases h with
      | answered ha => cases ha
      | entered _ h =>
          cases h with
          | plain hb _ => cases hb
          | precedence hb _ _ => cases hb

/-- Behind `x *` in a line, where an operand may be left out, so that operators can come next as
well. Once no rule is reported as a whole, and once sums are. -/
theorem line_completions_agree : ∃ g tokens, lineGrammar.build = .ok g ∧
    lineGrammar.numbering.size < 2 ^ 31 - 2 ∧ g.lexer.source.tokenize "x*" = .ok tokens ∧
    (∀ r os, Enumerates lineGrammar.definitions noAnswers (.rule r 0) [] os → EndsLast os) ∧
    (∃ c c' : Completion,
      (∃ bound, ∀ limit, bound ≤ limit →
        g.complete { Config.default with useFirstTokens := false } limit "x*" = .ok c ∧
        g.complete { Config.default with useFirstTokens := true } limit "x*" = .ok c') ∧
      c'.names = c.names) ∧
    (∃ chain t, Awaits lineGrammar.definitions (.rule 1 0) [] chain t) ∧
    ∃ c c' : Completion,
      (∃ bound, ∀ limit, bound ≤ limit →
        g.complete { Config.default with reported := [1], useFirstTokens := false } limit "x*" =
          .ok c ∧
        g.complete { Config.default with reported := [1], useFirstTokens := true } limit "x*" =
          .ok c') ∧
      c'.names.Perm c.names := by
  obtain ⟨g, tokens, hg, htokens⟩ := exists_tokenize_lineGrammar
  have hsize : lineGrammar.numbering.size < 2 ^ 31 - 2 := by decide
  have hlast : ∀ r os, Enumerates lineGrammar.definitions noAnswers (.rule r 0) [] os →
      EndsLast os := fun r os => endsLast_lineGrammar
  have hawaits : Awaits lineGrammar.definitions (.rule 1 0) [] [1] 2 := by
    obtain ⟨t, ht, hawaits⟩ := (enumerates_sum.offers (.token 2) [1]).mp List.mem_cons_self
    cases ht
    exact hawaits
  obtain ⟨c, c', hends, -, -, -, -, -, hsame⟩ :=
    completions_agree hg hsize .default rfl (by decide) htokens
  obtain ⟨k, k', hends', -, -, -, -, hperm, -⟩ :=
    completions_agree hg hsize { Config.default with reported := [1] } rfl (by decide) htokens
  refine ⟨g, tokens, hg, hsize, htokens, hlast, ⟨c, c', hends, hsame rfl hlast⟩, ⟨[1], 2, hawaits⟩,
    k, k', hends', hperm fun r hr _ => ?_⟩
  rw [List.mem_singleton.mp hr]
  exact ⟨[1], 2, hawaits⟩

/-- The names that are suggested behind an input of a grammar, if there is a completion. -/
def Source.names? (s : Source) (config : Config) (limit : Nat) (input : String) :
    Option (List String) :=
  s.build.toOption.bind fun g => (g.complete config limit input).toOption.map Completion.names

/-- In rule `s` the call of `a` can be left before the letter `x` is found in it. Below `a` stands a
call of `e`, which starts with nothing. In rule `q` the letter `x` is found in `b` and behind it. -/
def reorderedGrammar : Source where
  rules := [
    ⟨"s", .plain (.seq [.rule "a", .terminal (.one (.literal "y"))])⟩,
    ⟨"a", .plain (.seq [.rule "e", .optional (.terminal (.one (.literal "x"))) false])⟩,
    ⟨"e", .plain .empty⟩,
    ⟨"p", .plain (.rule "q")⟩,
    ⟨"q", .plain (.alt [.rule "b", .terminal (.one (.literal "y")),
      .terminal (.one (.literal "x"))])⟩,
    ⟨"b", .plain (.terminal (.one (.literal "x")))⟩]
  lexerRules := []

/-- The table changes the order of the names if a rule can be left before something is found in it.
It loses a rule that is reported as a whole and starts with nothing. It also changes the order if a
rule is reported as a whole, where the same token comes next in it and behind it. -/
theorem table_changes_names :
    reorderedGrammar.names? { Config.default with useFirstTokens := false } 1000 "" =
      some ["y", "x"] ∧
    reorderedGrammar.names? { Config.default with useFirstTokens := true } 1000 "" =
      some ["x", "y"] ∧
    reorderedGrammar.names? { Config.default with reported := [2], useFirstTokens := false } 1000
      "" = some ["e", "y", "x"] ∧
    reorderedGrammar.names? { Config.default with reported := [2], useFirstTokens := true } 1000
      "" = some ["x", "y"] ∧
    reorderedGrammar.names?
      { Config.default with initialRule := 3, reported := [5], useFirstTokens := false } 1000 "" =
      some ["b", "y", "x"] ∧
    reorderedGrammar.names?
      { Config.default with initialRule := 3, reported := [5], useFirstTokens := true } 1000 "" =
      some ["b", "x", "y"] := by
  cbv

end Caret
