import Caret.Proofs.Comparison
import Caret.Proofs.FirstTokens
import Caret.Proofs.Suggestions

/-!
# `Caret.Proofs.Transparency`: a table of first tokens does not change what is found

With a table of first tokens, calls at the caret are answered by the table, and calls in front of a
token are left out if the rule cannot start with the token. `table_is_transparent` states that this
does not change the findings of a traversal, nor whether it reaches the end. If no rule is reported
as a whole and no rule is nullable, the joined candidates are the same list.

The table knows what a rule can start with at level zero. A call may be made at a higher level,
where some operators are not admitted. This makes no difference as long as primaries read a token,
because operators come behind them.

The three parts of the argument compare searches, call by call:

* `Enumerates.trimsTo`: at the caret, reporting rules as a whole is cutting all findings there, up
  to rules in which nothing is found;
* `eq_nil_of_pruned`: a call that the table leaves out has no outcomes;
* `Enumerates.same_of_table` and `Enumerates.regroups_of_table`: with and without the table.
-/

set_option autoImplicit false

namespace Caret

open Outcome

/-- No primary of a rule with operators derives the empty text. -/
def PrimariesRead {τ ρ : Type} (d : Definitions τ ρ) : Prop :=
  ∀ r primaries operators, d.body r = some (.precedence primaries operators) →
    ∀ e ∈ primaries, ¬ Yields d (.expr e) []

/-! ### Levels -/

section

variable {τ ρ : Type} {d : Definitions τ ρ} {r : RuleIndex} {level : Int} {os : List Outcome}

/-- At the caret it makes no difference at which level a rule is called. -/
theorem Enumerates.at_level (hp : PrimariesRead d)
    (h : Enumerates d noAnswers (.rule r level) [] os) (level' : Int) :
    Enumerates d noAnswers (.rule r level') [] os := by
  cases h with
  | answered ha => cases ha
  | entered _ hbody =>
      refine .entered rfl ?_
      cases hbody with
      | plain hb h => exact .plain hb h
      | precedence hb hfirst _ =>
          -- The operators are not looked at, because no primary is read.
          refine .precedence hb hfirst fun u hu => ?_
          obtain ⟨w, hw, hyields⟩ := (hfirst.reads u).mp hu
          obtain ⟨rfl, -⟩ := List.append_eq_nil_iff.mp hw.symm
          cases hyields with
          | alt he hyields => exact absurd hyields (hp r _ _ hb _ he)

end

/-! ### Entries of the table -/

section

variable {f : FirstTokens} {r : RuleIndex} {os : List Outcome} {reported : List RuleIndex}

/-- What a rule can start with are the findings of its entry, cut. -/
theorem FirstTokens.starts_eq_findings {x : RuleStart} (h : f.entry? r = some x) :
    f.starts reported r = (findings x.candidates).map fun y => cut reported y.1 y.2 := by
  simp only [starts, h, findings, List.map_flatMap, List.map_map]
  rfl

/-- The entry of a rule has these outcomes. -/
def FirstTokens.Holds (f : FirstTokens) (r : RuleIndex) (os : List Outcome) : Prop :=
  f.entry? r = some ⟨merge (candidates os), reachesEnd os⟩

namespace FirstTokens.Holds

/-- The rule counts as nullable if the search came to its end. -/
theorem isNullable_iff (h : f.Holds r os) : f.isNullable r = true ↔ .done [] ∈ os := by
  rw [FirstTokens.isNullable, h]
  exact List.contains_iff_mem

/-- At the caret a rule is left where it is passed. -/
theorem passes_iff (h : f.Holds r os) {τ ρ : Type} {d : Definitions τ ρ} {answers : Answers}
    {x : Phrase τ ρ} (hos : Enumerates d answers x [] os) {u : List TokenType} :
    f.isNullable r = true ∧ u = [] ↔ .done u ∈ os := by
  rw [h.isNullable_iff]
  constructor
  · rintro ⟨hdone, rfl⟩
    exact hdone
  · intro hdone
    obtain rfl := List.suffix_nil.mp (hos.suffix hdone)
    exact ⟨hdone, rfl⟩

/-- What the table holds for a rule is what the search reports, cut. -/
theorem mem_starts (h : f.Holds r os) {id : SuggestionId} {chain : Chain} :
    (id, chain) ∈ f.starts reported r ↔ .report id chain ∈ os.map (Outcome.cut reported) := by
  rw [FirstTokens.starts_eq_findings h, List.mem_map, report_mem_map_cut]
  constructor
  · rintro ⟨x, hx, hcut⟩
    rw [candidates_eq, mem_findings_merge, mem_reports] at hx
    exact ⟨x.1, x.2, hx, hcut⟩
  · rintro ⟨id', chain', hreport, hcut⟩
    refine ⟨(id', chain'), ?_, hcut⟩
    rw [candidates_eq, mem_findings_merge, mem_reports]
    exact hreport

/-- If no rule is reported as a whole, the table has the findings of a search, joined. -/
theorem starts_nil (h : f.Holds r os) : f.starts [] r = findings (noteAll [] (reports os)) := by
  rw [FirstTokens.starts_eq_findings h, candidates_eq, merge_map_candidate,
    List.map_congr_left fun y _ => FirstTokens.cut_nil y, List.map_id']

/-- A candidate of the entry was reported by the search. -/
theorem exists_report {id : SuggestionId} {c : Candidate} (hc : c ∈ merge (candidates os))
    (hid : c.id = id) : ∃ chain, .report id chain ∈ os := by
  rw [candidates_eq, merge_map_candidate] at hc
  have hmem : c.id ∈ (noteAll [] (reports os)).map Candidate.id := List.mem_map_of_mem hc
  rcases mem_map_id_noteAll.mp hmem with hmem | hmem
  · obtain ⟨x, hx, heq⟩ := List.mem_map.mp hmem
    refine ⟨x.2, ?_⟩
    rw [← hid, ← heq]
    exact mem_reports.mp hx
  · cases hmem

/-- A rule that is left out in front of a token can neither start with it nor be passed. -/
theorem mayStartWith_iff (h : f.Holds r os) (t : TokenType) : f.mayStartWith r t = true ↔
    .done [] ∈ os ∨ ∃ chain, .report (.token t) chain ∈ os := by
  have hends : reachesEnd os = true ↔ .done [] ∈ os := List.contains_iff_mem
  simp only [FirstTokens.mayStartWith, show f.entry? r = _ from h, Bool.or_eq_true, hends]
  refine or_congr_right ?_
  rw [RuleStart.startsWith, List.any_eq_true]
  constructor
  · rintro ⟨c, hc, hid⟩
    exact exists_report hc (of_decide_eq_true hid)
  · rintro ⟨chain, hreport⟩
    -- The candidates have the ids of the reports that they join.
    have hmem : SuggestionId.token t ∈ (merge (candidates os)).map Candidate.id := by
      rw [candidates_eq, merge_map_candidate, mem_map_id_noteAll]
      exact Or.inl (List.mem_map.mpr ⟨(.token t, chain), mem_reports.mpr hreport, rfl⟩)
    obtain ⟨c, hc, hid⟩ := List.mem_map.mp hmem
    exact ⟨c, hc, decide_eq_true hid⟩

end FirstTokens.Holds

/-- The entry of a rule holds at every level. -/
theorem FirstTokens.Describes.holds {rules : List (Rule Label RuleIndex)} {alphabet : Universe}
    (hf : f.Describes rules alphabet) (hp : PrimariesRead (.ofRules rules alphabet))
    (hr : r < rules.length) {level : Int}
    (h : Enumerates (.ofRules rules alphabet) noAnswers (.rule r level) [] os) : f.Holds r os :=
  hf.entry_eq r os hr (h.at_level hp 0)

end

/-! ### Calls that are left out -/

/-- Every outcome is that nothing was read, if `Y` holds, or `A` holds. -/
def Starting (os : List Outcome) (v : List TokenType) (Y A : Prop) : Prop :=
  ∀ o ∈ os, (o = .done v ∧ Y) ∨ A

section

variable {os os' : List Outcome} {v : List TokenType} {Y Y' A A' : Prop}

/-- The same with weaker conditions. -/
theorem Starting.imp (h : Starting os v Y A) (hY : Y → Y') (hA : A → A') :
    Starting os v Y' A' := fun o ho =>
  (h o ho).imp (fun hdone => ⟨hdone.1, hY hdone.2⟩) hA

/-- To be at the end at once is to read nothing. -/
theorem starting_done (v : List TokenType) (A : Prop) : Starting [.done v] v True A := by
  intro o ho
  exact Or.inl ⟨List.mem_singleton.mp ho, trivial⟩

/-- What comes of two searches comes of one of them. -/
theorem Starting.or {both : List Outcome} (hboth : ∀ o, o ∈ both ↔ o ∈ os ∨ o ∈ os')
    (h : Starting os v Y A) (h' : Starting os' v Y' A') :
    Starting both v (Y ∨ Y') (A ∨ A') := by
  intro o ho
  rcases (hboth o).mp ho with ho | ho
  · exact h.imp Or.inl Or.inl o ho
  · exact h'.imp Or.inr Or.inr o ho

/-- Two searches in a row read nothing if both do. They begin with the token if the first does, or
if the second does behind nothing. -/
theorem Starting.andThen {f : List TokenType → List Outcome} (h : Starting os v Y A)
    (h' : .done v ∈ os → Starting (f v) v Y' A') :
    Starting (andThen os f) v (Y ∧ Y') (A ∨ (Y ∧ A')) := by
  intro o ho
  obtain ⟨o', ho', hmem⟩ := List.mem_flatMap.mp ho
  rcases h o' ho' with ⟨rfl, hY⟩ | hA
  · rcases h' ho' o hmem with ⟨rfl, hY'⟩ | hA'
    · exact Or.inl ⟨rfl, hY, hY'⟩
    · exact Or.inr (Or.inr ⟨hY, hA'⟩)
  · exact Or.inr (Or.inl hA)

end

section

variable {τ ρ : Type} {d : Definitions τ ρ} {answers : Answers} {x : Phrase τ ρ}
  {os : List Outcome} {v : List TokenType} {t : TokenType}

/-- In front of a token a search reads nothing, or it begins by reading the token. -/
theorem Enumerates.starting (hanswers : ∀ r, answers (t :: v) r = none)
    (h : Enumerates d answers x (t :: v) os) :
    Starting os (t :: v) (Yields d x []) (∃ c, Awaits d x [] c t) := by
  generalize hrest : t :: v = rest at h
  -- Induction on the search. Sequences go on behind nothing, and choices read nothing in one of
  -- their ways.
  induction h with
  | @terminal a rest =>
      subst hrest
      intro o ho
      rw [ofSymbols] at ho
      split at ho
      · rename_i ht
        exact Or.inr ⟨[], .terminal ht⟩
      · cases ho
  | ref hr _ ih => exact (ih hrest).imp (.ref hr) (Exists.imp fun _ => .ref hr)
  | empty => exact (starting_done _ _).imp (fun _ => .empty) id
  | seqNil => exact (starting_done _ _).imp (fun _ => .seqNil) id
  | seqCons _ _ ih ih' =>
      refine ((ih hrest).andThen fun hdone => ih' _ hdone hrest).imp ?_ ?_
      · exact fun hyields => .seqCons hyields.1 hyields.2
      · rintro (⟨c, hc⟩ | ⟨hyields, c, hc⟩)
        · exact ⟨c, .seqHead hc⟩
        · exact ⟨c, .seqTail hyields hc⟩
  | altNil =>
      intro o ho
      cases ho
  | altCons _ _ ih ih' =>
      refine ((ih hrest).or (fun o => List.mem_append) (ih' hrest)).imp ?_ ?_
      · exact fun hyields => Yields.altCons_iff.mpr hyields
      · rintro (⟨c, hc⟩ | ⟨c, hc⟩)
        · exact ⟨c, Awaits.altCons_iff.mpr (Or.inl hc)⟩
        · exact ⟨c, Awaits.altCons_iff.mpr (Or.inr hc)⟩
  | optional _ ih =>
      refine ((ih hrest).or (fun o => mem_prefer) (starting_done _ False)).imp ?_ ?_
      · exact fun _ => .optionalSkip
      · rintro (⟨c, hc⟩ | hfalse)
        · exact ⟨c, .optional hc⟩
        · exact hfalse.elim
  | star _ _ ih ih' =>
      refine (((ih hrest).andThen fun hdone => ih' _ hdone hrest).or (fun o => mem_prefer)
        (starting_done _ False)).imp ?_ ?_
      · exact fun _ => .starNil
      · rintro ((⟨c, hc⟩ | ⟨hyields, c, hc⟩) | hfalse)
        · exact ⟨c, .starHead hc⟩
        · exact ⟨c, .starTail hyields hc⟩
        · exact hfalse.elim
  | plus _ _ ih ih' =>
      refine ((ih hrest).andThen fun hdone => ih' _ hdone hrest).imp ?_ ?_
      · exact fun hyields => .plus hyields.1 hyields.2
      · rintro (⟨c, hc⟩ | ⟨hyields, c, hc⟩)
        · exact ⟨c, .plusHead hc⟩
        · exact ⟨c, .plusTail hyields hc⟩
  | answered ha =>
      subst hrest
      rw [hanswers] at ha
      cases ha
  | entered _ _ ih =>
      intro o ho
      obtain ⟨o', ho', rfl⟩ := List.mem_map.mp ho
      rcases ih hrest o' ho' with ⟨rfl, hyields⟩ | ⟨c, hc⟩
      · exact Or.inl ⟨rfl, .rule hyields⟩
      · exact Or.inr ⟨_, .rule hc⟩
  | plain hb _ ih => exact (ih hrest).imp (.plain hb) (Exists.imp fun _ => .plain hb)
  | precedence hb _ _ ih ih' =>
      refine ((ih hrest).andThen fun hdone => ih' _ hdone hrest).imp ?_ ?_
      · exact fun hyields => .precedence hb hyields.1 hyields.2
      · rintro (⟨c, hc⟩ | ⟨hyields, c, hc⟩)
        · exact ⟨c, .primary hb hc⟩
        · exact ⟨c, .operators hb hyields hc⟩
  | loopEnd _ _ => exact (starting_done _ _).imp (fun _ => .loopEnd) id
  | loopSkip hb hlt _ _ ih =>
      refine (ih hrest).imp (fun _ => .loopEnd) (Exists.imp fun c hc => ?_)
      exact (Awaits.loop_iff hb (List.getElem?_eq_getElem hlt)).mpr (Or.inr hc)
  | loopMore hb he hlevel _ _ _ _ ih ih' ih'' ihrest =>
      have hboth := (ih hrest).andThen fun hdone => ih' _ hdone hrest
      refine ((hboth.andThen fun hdone => ih'' _ hdone hrest).or (fun o => List.mem_append)
        (ihrest hrest)).imp (fun _ => .loopEnd) ?_
      rintro (((⟨c, hc⟩ | ⟨hyields, c, hc⟩) | ⟨⟨hyields, hyields'⟩, c, hc⟩) | ⟨c, hc⟩)
      · exact ⟨c, .operator hb (Nat.le_refl _) he hlevel hc⟩
      · exact ⟨c, .operand hb (Nat.le_refl _) he hlevel hyields hc⟩
      · exact ⟨c, .loopMore hb (Nat.le_refl _) he hlevel hyields hyields' hc⟩
      · exact ⟨c, (Awaits.loop_iff hb he).mpr (Or.inr hc)⟩

end

/-! ### Searches with and without the table -/

section

variable {rules : List (Rule Label RuleIndex)} {alphabet : Universe} {f : FirstTokens}
  {reported : List RuleIndex} {x : Phrase Label RuleIndex} {r : RuleIndex} {level : Int}
  {v : List TokenType} {t : TokenType} {answers : Answers} {os os' : List Outcome}

/-- At the caret the table answers calls of rules that are not reported as a whole. -/
theorem Options.answers_of_table {options : Options} {nullable : RuleIndex → Bool}
    (hr : r ∉ options.reported) (hf : options.firstTokens = some f) :
    options.answers nullable [] r = some ⟨f.starts options.reported r, f.isNullable r⟩ := by
  rw [answers, if_neg hr, hf]
  rfl

/-- Only rules of the grammar have a body to search. -/
theorem lt_of_enumerates_body
    (h : Enumerates (.ofRules rules alphabet) answers (.body r level) v os) : r < rules.length := by
  have hlt : ∀ b, rules[r]?.map Rule.body = some b → r < rules.length := by
    intro b hb
    obtain ⟨rule, hrule, -⟩ := Option.map_eq_some_iff.mp hb
    exact (List.getElem?_eq_some_iff.mp hrule).1
  cases h with
  | plain hb _ => exact hlt _ hb
  | precedence hb _ _ => exact hlt _ hb

/-- A call that the table leaves out has no outcomes. -/
theorem eq_nil_of_pruned (h : WellFormed rules alphabet) (hf : f.Describes rules alphabet)
    (hr : r < rules.length) (hmay : ¬ f.mayStartWith r t = true)
    (hanswers : ∀ r, answers (t :: v) r = none)
    (hos : Enumerates (.ofRules rules alphabet) answers (.rule r level) (t :: v) os) : os = [] := by
  obtain ⟨ps, hps⟩ := h.exists_enumerates_rule (fair_noAnswers _) hr 0 []
  have hholds : f.Holds r ps := hf.entry_eq r ps hr hps
  rw [hholds.mayStartWith_iff] at hmay
  refine List.eq_nil_iff_forall_not_mem.mpr fun o ho => hmay ?_
  rcases hos.starting hanswers o ho with ⟨-, hyields⟩ | ⟨c, hc⟩
  · exact Or.inl ((hps.reads []).mpr ⟨[], rfl, hyields.rule_nil 0⟩)
  · exact Or.inr ⟨c, (hps.offers _ _).mpr ⟨t, rfl, hc.rule_zero⟩⟩

/-- A rule that is reported as a whole, although no derivation from it waits for a token. -/
def Bare (rules : List (Rule Label RuleIndex)) (alphabet : Universe) (reported : List RuleIndex)
    (r : RuleIndex) : Prop :=
  r ∈ reported ∧ r < rules.length ∧ ∀ c t, ¬ Awaits (.ofRules rules alphabet) (.rule r 0) [] c t

/-- Something is found in each rule that is not bare. -/
theorem not_bare (h : WellFormed rules alphabet) (hf : f.Describes rules alphabet)
    (hreported : ∀ r ∈ reported, ∀ entry, f.entry? r = some entry → entry.candidates ≠ []) :
    ¬ Bare rules alphabet reported r := by
  rintro ⟨hmem, hr, hnone⟩
  obtain ⟨os, hos⟩ := h.exists_enumerates_rule (fair_noAnswers _) hr 0 []
  have hne := hreported r hmem _ (hf.entry_eq r os hr hos)
  obtain ⟨c, hc⟩ := List.exists_mem_of_ne_nil _ hne
  obtain ⟨chain, hreport⟩ := FirstTokens.Holds.exists_report hc rfl
  obtain ⟨t, -, hawaits⟩ := (hos.offers _ _).mp hreport
  exact hnone chain t hawaits

/-- The phrase does not stand inside a rule that is reported as a whole. Such a rule may be called,
but calls at higher levels come from inside. -/
def Phrase.Outside {τ ρ : Type} (reported : List RuleIndex) : Phrase τ ρ → Prop
  | .expr _ => True
  | .rule r level => level = 0 ∨ r ∉ reported
  | .body r _ => r ∉ reported
  | .loop r _ _ => r ∉ reported

/-- Phrases inside a rule that is reported as a whole may report rules without findings. Outside
they may not. -/
theorem relatingBy_trimsTo {τ ρ : Type} (d : Definitions τ ρ) (answers : Answers)
    (reported : List RuleIndex) (bare : RuleIndex → Prop) :
    RelatingBy d answers fun x => TrimsTo reported fun r => x.Outside reported → bare r where
  done_iff h := h.done_iff
  done _ := (relating_trimsTo reported _).done
  symbols _ := (relating_trimsTo reported _).symbols
  append := (relating_trimsTo reported _).append
  andThen h := (relating_trimsTo reported _).andThen (h.mono fun _ hr _ => hr trivial)
  expr _ h := h.mono fun _ hr _ => hr trivial
  ref _ h := h.mono fun _ hr _ => hr (Or.inl rfl)
  loop _ h := h
  body h := h
  operator _ _ h hf _ hg := by
    refine (relating_trimsTo reported _).andThen ?_ hg
    refine (relating_trimsTo reported _).andThen (h.mono fun _ hr _ => hr trivial) fun u hu => ?_
    exact (hf u hu).mono fun _ hr hout => hr (Or.inr hout)

/-- At the caret a rule is passed if the table says so, at any level. -/
theorem FirstTokens.Describes.done_iff (hf : f.Describes rules alphabet)
    (hwf : WellFormed rules alphabet) (hr : r < rules.length)
    (h : Enumerates (.ofRules rules alphabet) noAnswers (.rule r level) [] os)
    {u : List TokenType} : .done u ∈ os ↔ f.isNullable r = true ∧ u = [] := by
  rw [hf.isNullable_iff hwf, and_iff_right hr]
  constructor
  · intro hu
    obtain ⟨w, hw, hyields⟩ := (h.reads u).mp hu
    obtain ⟨rfl, rfl⟩ := List.append_eq_nil_iff.mp hw.symm
    exact ⟨hyields.rule_nil 0, rfl⟩
  · rintro ⟨hyields, rfl⟩
    exact (h.reads []).mpr ⟨[], rfl, hyields.rule_nil level⟩

/-- Whatever is found in a rule that is reported as a whole is cut to the rule. -/
theorem trimsTo_reported (hf : f.Describes rules alphabet) (hwf : WellFormed rules alphabet)
    (hmem : r ∈ reported) (hr : r < rules.length)
    (h : Enumerates (.ofRules rules alphabet) noAnswers (.rule r level) [] os) :
    TrimsTo reported (fun r' => level = 0 ∨ r ∉ reported → Bare rules alphabet reported r') os
      (Answer.outcomes ⟨[(.rule r, [])], f.isNullable r⟩ []) := by
  have hcut : ∀ id chain, .report id chain ∈ os →
      FirstTokens.cut reported id chain = (.rule r, []) := by
    intro id chain hreport
    obtain ⟨t, rfl, hawaits⟩ := (h.offers id chain).mp hreport
    cases hawaits with
    | rule _ => simp [FirstTokens.cut, hmem]
  constructor
  · intro o ho
    cases o with
    | done u =>
        rw [Answer.done_mem_outcomes, ← hf.done_iff hwf hr h]
        exact done_mem_map_cut.mp ho
    | report id chain =>
        obtain ⟨id', chain', hreport, heq⟩ := report_mem_map_cut.mp ho
        rw [Answer.report_mem_outcomes, List.mem_singleton]
        exact heq.symm.trans (hcut _ _ hreport)
  · intro o ho
    cases o with
    | done u =>
        rw [Answer.done_mem_outcomes, ← hf.done_iff hwf hr h] at ho
        exact Or.inl (done_mem_map_cut.mpr ho)
    | report id chain =>
        rw [Answer.report_mem_outcomes, List.mem_singleton] at ho
        cases ho
        by_cases hfound : ∃ id chain, .report id chain ∈ os
        · obtain ⟨id, chain, hreport⟩ := hfound
          exact Or.inl (report_mem_map_cut.mpr ⟨id, chain, hreport, hcut _ _ hreport⟩)
        · -- Nothing is found in the rule, so at level zero it is bare.
          refine Or.inr ⟨r, [], rfl, fun hout => ⟨hmem, hr, fun c t hawaits => hfound ?_⟩⟩
          obtain rfl := hout.resolve_right fun hnot => hnot hmem
          exact ⟨_, c, (h.offers _ _).mpr ⟨t, rfl, hawaits⟩⟩

/-- At the caret, a search that reports rules as a whole comes to the outcomes of a search that does
not, cut at these rules, and to reports of rules in which nothing is found. -/
theorem Enumerates.trimsTo (hwf : WellFormed rules alphabet) (hf : f.Describes rules alphabet)
    (h : Enumerates (.ofRules rules alphabet) noAnswers x [] os)
    (h' : Enumerates (.ofRules rules alphabet)
      (Options.answers ⟨reported, [], none⟩ f.isNullable) x [] os') (hx : x.Outside reported) :
    TrimsTo reported (Bare rules alphabet reported) os os' := by
  suffices htrims : TrimsTo reported
      (fun r => x.Outside reported → Bare rules alphabet reported r) os os' from
    htrims.mono fun _ hr => hr hx
  refine Enumerates.related_by (relatingBy_trimsTo _ _ reported _) ?_ ?_ h (List.suffix_refl []) h'
  · intro v r level a os' _ ha
    cases ha
  · intro v r level os os' hv _ hbody ih hos'
    obtain rfl := List.suffix_nil.mp hv
    by_cases hr : r ∈ reported
    · have hanswer : Options.answers ⟨reported, [], none⟩ f.isNullable [] r =
          some ⟨[(.rule r, [])], f.isNullable r⟩ := if_pos hr
      cases hos' with
      | entered ha _ => rw [hanswer] at ha; cases ha
      | answered ha =>
          cases hanswer.symm.trans ha
          exact trimsTo_reported hf hwf hr (lt_of_enumerates_body hbody) (.entered rfl hbody)
    · have hanswer : Options.answers ⟨reported, [], none⟩ f.isNullable [] r = none := if_neg hr
      cases hos' with
      | answered ha => rw [hanswer] at ha; cases ha
      | entered _ hbody' =>
          exact ((ih _ hbody').within hr).mono fun _ hbare _ => hbare hr

/-- With the table a search comes to the same outcomes, in some order. -/
theorem Enumerates.same_of_table (h : WellFormed rules alphabet) (hf : f.Describes rules alphabet)
    (hp : PrimariesRead (.ofRules rules alphabet))
    (hreported : ∀ r ∈ reported, ∀ entry, f.entry? r = some entry → entry.candidates ≠ [])
    (hos : Enumerates (.ofRules rules alphabet)
      (Options.answers ⟨reported, [], none⟩ f.isNullable) x v os)
    (hos' : Enumerates (.ofRules rules alphabet)
      (Options.answers ⟨reported, [], some f⟩ f.isNullable) x v os') : CutsTo [] os os' := by
  refine Enumerates.related (relating_cutsTo []) ?_ ?_ hos (List.suffix_refl v) hos'
  · intro v r level a os' _ ha hos'
    cases v with
    | cons t v => cases ha
    | nil =>
        by_cases hr : r ∈ reported
        · -- The table does not matter for a rule that is reported as a whole.
          cases (if_pos hr).symm.trans ha
          have hanswer : Options.answers ⟨reported, [], some f⟩ f.isNullable [] r =
              some ⟨[(.rule r, [])], f.isNullable r⟩ := if_pos hr
          cases hos' with
          | entered ha' _ => rw [hanswer] at ha'; cases ha'
          | answered ha' =>
              cases hanswer.symm.trans ha'
              exact cutsTo_nil.mpr fun o => Iff.rfl
        · cases (if_neg hr).symm.trans ha
  · intro v r level os os' _ ha hbody ih hos'
    have hr := lt_of_enumerates_body hbody
    have hrule := Enumerates.entered ha hbody
    cases v with
    | nil =>
        have hnot : r ∉ reported := by
          intro hmem
          cases (if_pos hmem).symm.trans ha
        have hanswer : Options.answers ⟨reported, [], some f⟩ f.isNullable [] r =
            some ⟨f.starts reported r, f.isNullable r⟩ := Options.answers_of_table hnot rfl
        cases hos' with
        | entered ha' _ => rw [hanswer] at ha'; cases ha'
        | answered ha' =>
            cases hanswer.symm.trans ha'
            -- Compared with the search that knows no options, reporting cuts the outcomes, and so
            -- does the table.
            obtain ⟨ps, hps⟩ := h.exists_enumerates_rule (fair_noAnswers _) hr level []
            have hcuts : CutsTo reported ps (os.map (within r)) := by
              refine cutsTo_iff_trimsTo.mpr ((hps.trimsTo h hf hrule (Or.inr hnot)).mono ?_)
              exact fun _ => not_bare h hf hreported
            have hholds := hf.holds hp hr hps
            refine cutsTo_nil.mpr fun o => ?_
            rw [hcuts]
            cases o with
            | done u => rw [Answer.done_mem_outcomes, hholds.passes_iff hps, done_mem_map_cut]
            | report id chain => rw [Answer.report_mem_outcomes, hholds.mem_starts]
    | cons t v =>
        cases hos' with
        | entered _ hbody' => exact (ih _ hbody').within (by simp)
        | answered ha' =>
            by_cases hmay : f.mayStartWith r t = true
            · cases (if_pos hmay).symm.trans ha'
            · cases (if_neg hmay).symm.trans ha'
              rw [eq_nil_of_pruned h hf hr hmay (fun _ => rfl) hrule]
              exact cutsTo_nil.mpr fun o => Iff.rfl

/-- If no rule is reported as a whole and no rule is nullable, the table only joins reports. -/
theorem Enumerates.regroups_of_table (h : WellFormed rules alphabet)
    (hf : f.Describes rules alphabet) (hp : PrimariesRead (.ofRules rules alphabet))
    (hnullable : ∀ r, r < rules.length → ¬ Yields (.ofRules rules alphabet) (.rule r 0) [])
    (hos : Enumerates (.ofRules rules alphabet) noAnswers x v os)
    (hos' : Enumerates (.ofRules rules alphabet)
      (Options.answers ⟨[], [], some f⟩ f.isNullable) x v os') : Regroups os os' := by
  refine Enumerates.related Regroups.relating ?_ ?_ hos (List.suffix_refl v) hos'
  · intro v r level a os' _ ha
    cases ha
  · intro v r level os os' _ ha hbody ih hos'
    have hr := lt_of_enumerates_body hbody
    have hrule : Enumerates (.ofRules rules alphabet) noAnswers (.rule r level) v
        (os.map (within r)) := .entered ha hbody
    cases v with
    | nil =>
        have hanswer : Options.answers ⟨[], [], some f⟩ f.isNullable [] r =
            some ⟨f.starts [] r, f.isNullable r⟩ := Options.answers_of_table List.not_mem_nil rfl
        cases hos' with
        | entered ha' _ => rw [hanswer] at ha'; cases ha'
        | answered ha' =>
            cases hanswer.symm.trans ha'
            have hholds := hf.holds hp hr hrule
            -- No rule is read to its end without a token.
            have hnone : ∀ u, .done u ∉ os.map (within r) := by
              intro u hu
              obtain rfl := List.suffix_nil.mp (hrule.suffix hu)
              obtain ⟨w, hw, hyields⟩ := ((hrule.at_level hp 0).reads []).mp hu
              rw [List.append_nil] at hw
              exact hnullable r hr (hw ▸ hyields)
            have hpasses : f.isNullable r = false := by
              rw [← Bool.not_eq_true, hholds.isNullable_iff]
              exact hnone []
            -- All reports of the rule are one stretch, because the rule is not read to its end.
            have hblock := Regroups.block (reports (os.map (within r))) .nil
            rw [ofFindings_reports hnone, ← hholds.starts_nil, List.append_nil] at hblock
            rw [Answer.outcomes, hpasses]
            exact hblock
    | cons t v =>
        cases hos' with
        | entered _ hbody' => exact (ih _ hbody').within r
        | answered ha' =>
            by_cases hmay : f.mayStartWith r t = true
            · cases (if_pos hmay).symm.trans ha'
            · cases (if_neg hmay).symm.trans ha'
              rw [eq_nil_of_pruned h hf hr hmay (fun _ => rfl) hrule]
              exact .nil

end

/-! ### Traversals of accepted grammars -/

/-- Answers let a rule be passed only if it is nullable. -/
theorem Options.fair_answers {options : Options} {nullable known : RuleIndex → Bool}
    (h : ∀ r, options.isNullable nullable r = true → known r = true) :
    (options.answers nullable).Fair known := by
  intro v r a ha hpasses
  cases v with
  | nil =>
      rw [Options.answers] at ha
      split at ha
      · cases ha
        exact h r hpasses
      · obtain ⟨f, hf, rfl⟩ := Option.map_eq_some_iff.mp ha
        refine h r ?_
        rw [Options.isNullable, hf]
        exact hpasses
  | cons t v =>
      obtain ⟨f, hf, ha⟩ := Option.bind_eq_some_iff.mp ha
      split at ha
      · cases ha
      · cases ha
        cases hpasses

namespace Source

variable {s : Source} {g : Grammar}

/-- What derives a text after names are resolved derives it as it is written. -/
theorem yields_of_resolved (h : s.build = .ok g) (hsize : s.numbering.size < 2 ^ 31 - 2)
    {x : Phrase Terminal String} {x' : Phrase Label RuleIndex}
    (hx : Phrase.Resolves (IsLabel s) (IsPosition s) x x') {v : List TokenType}
    (hgrounded : Grounded g.rules x' v)
    (hyields : Yields (.ofRules g.rules s.tokenUniverse) x' v) : Yields s.definitions x v := by
  obtain ⟨os, hos⟩ := hgrounded.exists_enumerates (fair_noAnswers _)
  have hdone : .done [] ∈ os := (hos.reads []).mpr ⟨v, (List.append_nil v).symm, hyields⟩
  have hos' := hos.of_resolved (resolves_of_build h hsize) hx
  obtain ⟨w, hw, hyields'⟩ := (hos'.reads []).mp hdone
  rw [List.append_nil] at hw
  rw [hw]
  exact hyields'

/-- Resolving names does not make a primary derive the empty text. -/
theorem primariesRead_of_build (h : s.build = .ok g) (hsize : s.numbering.size < 2 ^ 31 - 2)
    (hp : PrimariesRead s.definitions) :
    PrimariesRead (.ofRules g.rules s.tokenUniverse) := by
  intro r primaries' operators' hbody' e' he' hyields
  have hwf := wellFormed_of_build h hsize
  obtain ⟨body, hbody, hresolves⟩ := (resolves_of_build h hsize).body r _ hbody'
  cases hresolves with
  | @precedence primaries _ _ _ hprimaries _ =>
      obtain ⟨k, hk⟩ := List.mem_iff_getElem?.mp he'
      obtain ⟨e, he, hresolves⟩ := hprimaries.getElem?.2 k e' hk
      have hsound := (hwf.sound_precedence hbody').1.of_mem he'
      exact hp r _ _ hbody e (List.mem_of_getElem? he) (yields_of_resolved h hsize
        (.expr hresolves) ((hwf.allGrounded []).expr e' hsound) hyields)

/-- Nor does it make a rule nullable. -/
theorem not_yields_of_build (h : s.build = .ok g) (hsize : s.numbering.size < 2 ^ 31 - 2)
    (hnullable : ∀ r, ¬ Yields s.definitions (.rule r 0) []) (r : RuleIndex)
    (hr : r < g.rules.length) : ¬ Yields (.ofRules g.rules s.tokenUniverse) (.rule r 0) [] :=
  fun hyields => hnullable r (yields_of_resolved h hsize .rule
    (((wellFormed_of_build h hsize).allGrounded []).rule r 0 hr) hyields)

/-- Something is found in a rule if a derivation from it waits for a token. -/
theorem candidates_ne_nil_of_awaits (h : s.build = .ok g) (hsize : s.numbering.size < 2 ^ 31 - 2)
    {f : FirstTokens} (hf : Ends (fun limit => FirstTokens.ofNetwork g.recognizer.network limit) f)
    {r : RuleIndex} {c : Chain} {t : TokenType} (hawaits : Awaits s.definitions (.rule r 0) [] c t)
    {entry : RuleStart} (hentry : f.entry? r = some entry) : entry.candidates ≠ [] := by
  have hwf := wellFormed_of_build h hsize
  obtain ⟨f', hends, hdescribes⟩ := FirstTokens.ofNetwork_ends hwf (realizes_of_build h hsize)
  obtain rfl := hends.unique hf
  rcases Nat.lt_or_ge r g.rules.length with hr | hr
  · obtain ⟨os, hos⟩ := hwf.exists_enumerates_rule (fair_noAnswers _) hr 0 []
    have hsource := hos.of_resolved (resolves_of_build h hsize) .rule
    have hreport : .report (.token t) c ∈ os := (hsource.offers _ _).mpr ⟨t, rfl, hawaits⟩
    cases hentry.symm.trans (hdescribes.entry_eq r os hr hos)
    intro hnil
    have hmem : (SuggestionId.token t, c) ∈ findings (merge (candidates os)) := by
      rw [candidates_eq, mem_findings_merge, mem_reports]
      exact hreport
    rw [show merge (candidates os) = [] from hnil] at hmem
    cases hmem
  · rw [hdescribes.entry_none r hr] at hentry
    cases hentry

end Source

/-- Outcomes that are the same in some order give the same candidates. -/
theorem ofOutcomes_of_cutsTo {os os' : List Outcome} (h : CutsTo [] os os') :
    (Traversal.ofOutcomes os).reachedEnd = (Traversal.ofOutcomes os').reachedEnd ∧
      ∀ c, c ∈ (Traversal.ofOutcomes os).found ↔ c ∈ (Traversal.ofOutcomes os').found := by
  rw [cutsTo_nil] at h
  constructor
  · rw [Bool.eq_iff_iff]
    show reachesEnd os = true ↔ reachesEnd os' = true
    rw [reachesEnd, reachesEnd, List.contains_iff_mem, List.contains_iff_mem, h]
  · intro c
    show c ∈ candidates os ↔ c ∈ candidates os'
    rw [mem_candidates, mem_candidates]
    exact exists_congr fun id => exists_congr fun chain => and_congr_left fun _ => (h _).symm

/-- A table of first tokens does not change what a traversal finds, and neither whether it reaches
the end. Each candidate that is found has one chain. Primaries have to read a token, and something
has to be found in each rule that is reported as a whole. If no rule is reported as a whole and no
rule is nullable, then the joined candidates are the same list. -/
theorem table_is_transparent {s : Source} {g : Grammar} (h : s.build = .ok g)
    (hsize : s.numbering.size < 2 ^ 31 - 2) (hprimaries : PrimariesRead s.definitions) :
    ∃ f, Ends (fun limit => FirstTokens.ofNetwork g.recognizer.network limit) f ∧
      ∀ reported : List RuleIndex,
        (∀ r ∈ reported, ∀ entry, f.entry? r = some entry → entry.candidates ≠ []) →
        ∀ (r : RuleIndex) (w : List TokenType), ∃ T T',
          Ends (fun limit => traverse g.recognizer.network ⟨w.toArray⟩
            ⟨reported, [], none⟩ limit r) T ∧
          Ends (fun limit => traverse g.recognizer.network ⟨w.toArray⟩
            ⟨reported, [], some f⟩ limit r) T' ∧
          T.reachedEnd = T'.reachedEnd ∧ (∀ c, c ∈ T.found ↔ c ∈ T'.found) ∧
          (reported = [] → (∀ r', ¬ Yields s.definitions (.rule r' 0) []) →
            merge T.found = merge T'.found) := by
  have hwf := Source.wellFormed_of_build h hsize
  have hn := Source.realizes_of_build h hsize
  have hp := Source.primariesRead_of_build h hsize hprimaries
  obtain ⟨f, hends, hf⟩ := FirstTokens.ofNetwork_ends hwf hn
  refine ⟨f, hends, fun reported hreported r w => ?_⟩
  rcases Nat.lt_or_ge r s.rules.length with hr | hr
  · have hr' : r < g.rules.length := (Source.length_rules h).symm ▸ hr
    -- The table and the traversals for single rules agree on which rules are nullable.
    obtain ⟨nullable, hnullable, bound, hsettled⟩ := Setting.ofOptions_ends hwf hn
    have hsame : nullable = f.isNullable := by
      funext r
      rw [Bool.eq_iff_iff, hnullable, hf.isNullable_iff hwf]
    subst hsame
    have hknown : ∀ r, f.isNullable r = true → knownNullable g.rules r = true :=
      fun r hr => hf.knownNullable hwf hr
    have hfair : (Options.answers ⟨reported, [], none⟩ f.isNullable).Fair (knownNullable g.rules) :=
      Options.fair_answers hknown
    have hfair' : (Options.answers ⟨reported, [], some f⟩ f.isNullable).Fair
        (knownNullable g.rules) := Options.fair_answers hknown
    obtain ⟨os, hos⟩ := hwf.exists_enumerates_body hfair hr' w
    obtain ⟨os', hos'⟩ := hwf.exists_enumerates_body hfair' hr' w
    have hcuts := (hos.same_of_table hwf hf hp hreported hos').within (r := r) List.not_mem_nil
    refine ⟨_, _, traverse_of_enumerates hn (fun limit hlimit => hsettled limit hlimit _ _) rfl hr'
      hos, traverse_of_enumerates hn (fun limit hlimit => hsettled limit hlimit _ _) rfl hr' hos',
      (ofOutcomes_of_cutsTo hcuts).1, (ofOutcomes_of_cutsTo hcuts).2, ?_⟩
    rintro rfl hnone
    have hplain : Options.answers ⟨[], [], none⟩ f.isNullable = noAnswers :=
      Options.answers_none f.isNullable
    rw [hplain] at hos
    have hnone' := Source.not_yields_of_build h hsize hnone
    have hregroups := hos.regroups_of_table hwf hf hp hnone' hos'
    exact (hregroups.within r).merge_eq
  · exact ⟨.empty, .empty, Source.traverse_ends_of_length_le h hsize hr _ _,
      Source.traverse_ends_of_length_le h hsize hr _ _, rfl, fun c => Iff.rfl, fun _ _ => rfl⟩

/-- A rule with operators is not nullable, as it begins with a primary that reads
something. -/
theorem PrimariesRead.not_yields {τ ρ : Type} {d : Definitions τ ρ} (hp : PrimariesRead d)
    {r : RuleIndex} {level : Int} {primaries operators : List (Expr τ ρ)}
    (hbody : d.body r = some (.precedence primaries operators)) :
    ¬ Yields d (.rule r level) [] := by
  intro h
  cases h with
  | rule h =>
      obtain ⟨u, v, huv, hprimary, -⟩ := (Yields.precedence_iff hbody).mp h
      obtain ⟨rfl, -⟩ := List.append_eq_nil_iff.mp huv.symm
      cases hprimary with
      | alt he hprimary => exact hp r _ _ hbody _ he hprimary

/-- The primaries of a sum begin with `x` or a parenthesis. -/
theorem primariesRead_productGrammar : PrimariesRead productGrammar.definitions := by
  intro r primaries operators hbody e he hyields
  match r with
  | 0 => cases hbody
  | 1 =>
      cases hbody
      rcases List.mem_pair.mp he with rfl | rfl
      · cases hyields
      · obtain ⟨u, v, huv, hopen, -⟩ := Yields.seqCons_iff.mp hyields
        obtain ⟨rfl, -⟩ := List.append_eq_nil_iff.mp huv.symm
        cases hopen
  | r + 2 => cases hbody

/-- A list begins with a sum, so neither rule is nullable. -/
theorem not_yields_productGrammar (r : RuleIndex) :
    ¬ Yields productGrammar.definitions (.rule r 0) [] := by
  match r with
  | 0 =>
      intro h
      cases h with
      | rule h =>
          generalize hw : ([] : List TokenType) = w at h
          cases h with
          | precedence hbody _ _ => cases hbody
          | plain hbody h =>
              cases hbody
              obtain ⟨u, v, rfl, hsum, -⟩ := Yields.seqCons_iff.mp h
              obtain ⟨rfl, -⟩ := List.append_eq_nil_iff.mp hw.symm
              cases hsum with
              | ref hcallee hsum =>
                  have hr : productGrammar.definitions.callee "sum" = some 1 := by decide
                  obtain rfl := Option.some.inj (hr.symm.trans hcallee)
                  exact primariesRead_productGrammar.not_yields rfl hsum
  | 1 => exact primariesRead_productGrammar.not_yields rfl
  | r + 2 => exact Source.not_yields_of_length_le (Nat.le_add_left 2 r)

/-- A list that begins with `x *`, with sums reported as a whole and without. -/
theorem product_table_is_transparent : ∃ g, productGrammar.build = .ok g ∧
    productGrammar.numbering.size < 2 ^ 31 - 2 ∧ PrimariesRead productGrammar.definitions ∧
    ∃ f, Ends (fun limit => FirstTokens.ofNetwork g.recognizer.network limit) f ∧
      (∀ r ∈ [1], ∀ entry, f.entry? r = some entry → entry.candidates ≠ []) ∧
      (∃ T T',
        Ends (fun limit => traverse g.recognizer.network ⟨#[2, 5]⟩ ⟨[1], [], none⟩ limit 0) T ∧
        Ends (fun limit => traverse g.recognizer.network ⟨#[2, 5]⟩ ⟨[1], [], some f⟩ limit 0) T' ∧
        T.reachedEnd = T'.reachedEnd ∧ ∀ c, c ∈ T.found ↔ c ∈ T'.found) ∧
      (∀ r, ¬ Yields productGrammar.definitions (.rule r 0) []) ∧
      ∃ T T',
        Ends (fun limit => traverse g.recognizer.network ⟨#[2, 5]⟩ ⟨[], [], none⟩ limit 0) T ∧
        Ends (fun limit => traverse g.recognizer.network ⟨#[2, 5]⟩ ⟨[], [], some f⟩ limit 0) T' ∧
        merge T.found = merge T'.found := by
  obtain ⟨g, hg⟩ := exists_build_productGrammar
  have hsize := size_numbering_productGrammar
  obtain ⟨f, hf, hall⟩ := table_is_transparent hg hsize primariesRead_productGrammar
  have hawaits : Awaits productGrammar.definitions (.rule 1 0) [] [1] 2 :=
    .rule (.primary rfl (.alt List.mem_cons_self (.terminal (by decide))))
  have hfound : ∀ r ∈ [1], ∀ entry, f.entry? r = some entry → entry.candidates ≠ [] := by
    intro r hr entry hentry
    rw [List.mem_singleton.mp hr] at hentry
    exact Source.candidates_ne_nil_of_awaits hg hsize hf hawaits hentry
  obtain ⟨T, T', hT, hT', hend, hsame, -⟩ := hall [1] hfound 0 [2, 5]
  obtain ⟨U, U', hU, hU', -, -, hmerge⟩ := hall [] (by simp) 0 [2, 5]
  exact ⟨g, hg, hsize, primariesRead_productGrammar, f, hf, hfound, ⟨T, T', hT, hT', hend, hsame⟩,
    not_yields_productGrammar, U, U', hU, hU', hmerge rfl not_yields_productGrammar⟩

end Caret
