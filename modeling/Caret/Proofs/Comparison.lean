import Mathlib
import Caret.Proofs.Enumeration
import Caret.Proofs.Merge
import Caret.Traversal.FirstTokens

/-!
# `Caret.Proofs.Comparison`: comparing two searches

Two searches through one phrase differ in the calls that are answered. Here are relations between
their outcomes that `Enumerates.related` carries from calls to all phrases. `CutsTo reported os os'`
says that `os'` has the outcomes of `os`, as a set, with the reports cut at rules that are reported
as a whole, and `TrimsTo` leaves room for reports of some more rules. `Regroups os os'` says that
`os'` is `os` with some stretches of reports joined by their ids, which makes no difference to the
candidates in the end (`Regroups.merge_eq`).
-/

set_option autoImplicit false

namespace Caret

open Outcome

/-! ### Cutting at reported rules -/

/-- The outcome with its report cut at the outermost rule that is to be reported. -/
def Outcome.cut (reported : List RuleIndex) : Outcome → Outcome
  | .report id chain => .report (FirstTokens.cut reported id chain).1
      (FirstTokens.cut reported id chain).2
  | .done rest => .done rest

/-- A token is found as it is, or some rule of its chain that is to be reported is found in its
place, with the chain up to there. -/
theorem FirstTokens.cut_token (reported : List RuleIndex) (t : TokenType) (chain : Chain) :
    cut reported (.token t) chain = (.token t, chain) ∨
      ∃ i r, chain[i]? = some r ∧ r ∈ reported ∧
        cut reported (.token t) chain = (.rule r, chain.take i) := by
  -- The chain is split at the first rule that is to be reported, if there is one.
  have hsplit := List.takeWhile_append_dropWhile (p := (· ∉ reported)) (l := chain)
  have hstop := List.head?_dropWhile_not (· ∉ reported) chain
  cases hdrop : chain.dropWhile (· ∉ reported) with
  | nil =>
      refine Or.inl ?_
      simp only [cut, hdrop]
  | cons r rest =>
      rw [hdrop] at hsplit hstop
      refine Or.inr ⟨(chain.takeWhile (· ∉ reported)).length, r, ?_, by simpa using hstop, ?_⟩
      · nth_rewrite 1 [← hsplit]
        rw [List.getElem?_append_right (Nat.le_refl _), Nat.sub_self]
        rfl
      · simp only [cut, hdrop]
        rw [← List.prefix_iff_eq_take.mp (List.takeWhile_prefix _)]

/-- The outcomes `os'` are those of `os`, cut at the rules that are to be reported, in any order. -/
def CutsTo (reported : List RuleIndex) (os os' : List Outcome) : Prop :=
  ∀ o, o ∈ os' ↔ o ∈ os.map (cut reported)

section

variable {reported : List RuleIndex} {os os' : List Outcome}

/-- If no rule is to be reported there is nothing to cut at. -/
theorem Outcome.cut_nil (o : Outcome) : o.cut [] = o := by
  cases o with
  | done rest => rfl
  | report id chain =>
      cases id with
      | rule r => rfl
      | token t =>
          -- All rules are dropped, since none of them is to be reported.
          have hdrop : chain.dropWhile (fun r => decide (r ∉ ([] : List RuleIndex))) = [] :=
            List.dropWhile_eq_nil_iff.mpr (by simp)
          simp only [cut, FirstTokens.cut, hdrop]

/-- The same for a finding of a table. -/
theorem FirstTokens.cut_nil (x : Finding) : cut [] x.1 x.2 = x := by
  obtain ⟨hid, hchain⟩ := Outcome.report.inj (Outcome.cut_nil (.report x.1 x.2))
  exact Prod.ext hid hchain

/-- Without rules to report, the outcomes are the same. -/
theorem cutsTo_nil : CutsTo [] os os' ↔ ∀ o, o ∈ os' ↔ o ∈ os := by
  have hid : os.map (cut []) = os := by
    rw [List.map_congr_left fun o _ => cut_nil o, List.map_id']
  rw [CutsTo, hid]

/-- Cutting is about reports. Where a phrase can end stays the same. -/
@[simp] theorem Outcome.done_mem_map_cut {u : List TokenType} :
    .done u ∈ os.map (cut reported) ↔ .done u ∈ os := by
  rw [List.mem_map]
  constructor
  · rintro ⟨o, ho, hu⟩
    cases o with
    | report id chain => cases hu
    | done v =>
        cases hu
        exact ho
  · exact fun hu => ⟨_, hu, rfl⟩

/-- A report behind the cut comes from a report that may be a different one: several tokens below
one reported rule are cut to the same report of the rule. -/
theorem Outcome.report_mem_map_cut {id : SuggestionId} {chain : Chain} :
    .report id chain ∈ os.map (cut reported) ↔ ∃ id' chain', .report id' chain' ∈ os ∧
      FirstTokens.cut reported id' chain' = (id, chain) := by
  rw [List.mem_map]
  constructor
  · rintro ⟨o, ho, hr⟩
    cases o with
    | report id' chain' =>
        obtain ⟨hid, hchain⟩ := Outcome.report.inj hr
        exact ⟨id', chain', ho, Prod.ext hid hchain⟩
    | done v => cases hr
  · rintro ⟨id', chain', ho, hcut⟩
    refine ⟨_, ho, ?_⟩
    rw [cut, hcut]

/-- Cutting can be done before or after phrases are put together, because it leaves alone where the
first one ends. -/
theorem Outcome.map_cut_andThen (os : List Outcome) (f : List TokenType → List Outcome) :
    (andThen os f).map (cut reported) =
      andThen (os.map (cut reported)) fun u => (f u).map (cut reported) := by
  rw [andThen, andThen, List.map_flatMap, List.flatMap_map]
  refine List.flatMap_congr fun o _ => ?_
  cases o with
  | report id chain => rfl
  | done u => rfl

/-- A token that stands in the phrase itself has no rules above it, so it is not cut. -/
theorem Outcome.map_cut_ofSymbols (ts : List TokenType) (v : List TokenType) :
    (ofSymbols ts v).map (cut reported) = ofSymbols ts v := by
  -- At the caret every symbol is found with an empty chain, and before a token there is at most an
  -- end.
  cases v with
  | nil => simp [ofSymbols, cut, FirstTokens.cut]
  | cons t v =>
      rw [ofSymbols]
      split
      · rfl
      · rfl

/-- Within a rule that is not reported itself, cutting goes on as before. -/
theorem Outcome.map_cut_within {r : RuleIndex} (hr : r ∉ reported) (os : List Outcome) :
    (os.map (within r)).map (cut reported) = (os.map (cut reported)).map (within r) := by
  rw [List.map_map, List.map_map]
  refine List.map_congr_left fun o _ => ?_
  cases o with
  | done u => rfl
  | report id chain =>
      cases id with
      | rule r' => rfl
      | token t =>
          simp only [Function.comp_apply, Outcome.within, cut, FirstTokens.cut]
          rw [List.dropWhile_cons_of_pos (by simpa using hr),
            List.takeWhile_cons_of_pos (by simpa using hr)]
          split
          · rfl
          · rfl

/-- The outcomes `os'` are those of `os`, cut at the rules that are to be reported, in any order,
and possibly some reports of rules that are `bare`. -/
def TrimsTo (reported : List RuleIndex) (bare : RuleIndex → Prop) (os os' : List Outcome) : Prop :=
  (∀ o ∈ os.map (cut reported), o ∈ os') ∧
    ∀ o ∈ os', o ∈ os.map (cut reported) ∨ ∃ r chain, o = .report (.rule r) chain ∧ bare r

section

variable {bare bare' : RuleIndex → Prop}

/-- With more bare rules there is room for more reports. -/
theorem TrimsTo.mono (h : TrimsTo reported bare os os') (hbare : ∀ r, bare r → bare' r) :
    TrimsTo reported bare' os os' := by
  refine ⟨h.1, fun o ho => (h.2 o ho).imp_right ?_⟩
  rintro ⟨r, chain, rfl, hr⟩
  exact ⟨r, chain, rfl, hbare r hr⟩

/-- The two searches end at the same places: the additional reports are no ends. -/
theorem TrimsTo.done_iff (h : TrimsTo reported bare os os') {u : List TokenType} :
    .done u ∈ os ↔ .done u ∈ os' := by
  constructor
  · exact fun hu => h.1 _ (done_mem_map_cut.mpr hu)
  · intro hu
    rcases h.2 _ hu with hu | ⟨r, chain, heq, -⟩
    · exact done_mem_map_cut.mp hu
    · cases heq

/-- Comparing by `TrimsTo` can be carried from calls to phrases. What a sequence needs is that both
searches go on from the same places, which is `TrimsTo.done_iff`. -/
theorem relating_trimsTo (reported : List RuleIndex) (bare : RuleIndex → Prop) :
    Relating (TrimsTo reported bare) where
  done_iff h := h.done_iff
  done u := ⟨fun o ho => ho, fun o ho => Or.inl ho⟩
  symbols ts v := by
    rw [TrimsTo, map_cut_ofSymbols]
    exact ⟨fun o ho => ho, fun o ho => Or.inl ho⟩
  append h h' := by
    rw [TrimsTo, List.map_append]
    constructor
    · intro o ho
      exact List.mem_append.mpr ((List.mem_append.mp ho).imp (h.1 o) (h'.1 o))
    · intro o ho
      rw [List.mem_append]
      rcases List.mem_append.mp ho with ho | ho
      · exact (h.2 o ho).imp_left Or.inl
      · exact (h'.2 o ho).imp_left Or.inr
  andThen {os os' f f'} h h' := by
    rw [TrimsTo, map_cut_andThen]
    constructor
    · intro o ho
      -- The outcome is one of the first phrase, or the second phrase has it behind an end of the
      -- first.
      rcases mem_andThen.mp ho with ⟨ho, hne⟩ | ⟨u, hu, ho⟩
      · exact mem_andThen.mpr (Or.inl ⟨h.1 o ho, hne⟩)
      · have hu' := done_mem_map_cut.mp hu
        exact mem_andThen.mpr (Or.inr ⟨u, h.done_iff.mp hu', (h' u hu').1 o ho⟩)
    · intro o ho
      rcases mem_andThen.mp ho with ⟨ho, hne⟩ | ⟨u, hu, ho⟩
      · exact (h.2 o ho).imp_left fun ho => mem_andThen.mpr (Or.inl ⟨ho, hne⟩)
      · have hu' := h.done_iff.mpr hu
        refine ((h' u hu').2 o ho).imp_left fun ho => ?_
        exact mem_andThen.mpr (Or.inr ⟨u, done_mem_map_cut.mpr hu', ho⟩)

/-- Within a rule that is not reported itself the comparison goes on as before. -/
theorem TrimsTo.within {r : RuleIndex} (hr : r ∉ reported) (h : TrimsTo reported bare os os') :
    TrimsTo reported bare (os.map (within r)) (os'.map (within r)) := by
  rw [TrimsTo, map_cut_within hr]
  constructor
  · intro o ho
    obtain ⟨o', ho', rfl⟩ := List.mem_map.mp ho
    exact List.mem_map_of_mem (h.1 o' ho')
  · intro o ho
    obtain ⟨o', ho', rfl⟩ := List.mem_map.mp ho
    -- A report of a bare rule is still one when it stands below another rule.
    rcases h.2 o' ho' with hmem | ⟨r', chain, rfl, hbare⟩
    · exact Or.inl (List.mem_map_of_mem hmem)
    · exact Or.inr ⟨r', r :: chain, rfl, hbare⟩

end

/-- Without room for more reports the two relations are the same. -/
theorem cutsTo_iff_trimsTo : CutsTo reported os os' ↔ TrimsTo reported (fun _ => False) os os' := by
  constructor
  · exact fun h => ⟨fun o => (h o).mpr, fun o ho => Or.inl ((h o).mp ho)⟩
  · intro h o
    refine ⟨fun ho => (h.2 o ho).resolve_right ?_, h.1 o⟩
    rintro ⟨r, chain, -, hfalse⟩
    exact hfalse

/-- Hence comparing by `CutsTo` can be carried from calls to phrases as well. -/
theorem relating_cutsTo (reported : List RuleIndex) : Relating (CutsTo reported) := by
  have heq : CutsTo reported = TrimsTo reported fun _ => False :=
    funext₂ fun os os' => propext cutsTo_iff_trimsTo
  rw [heq]
  exact relating_trimsTo reported _

/-- The same for `CutsTo`. -/
theorem CutsTo.within {r : RuleIndex} (hr : r ∉ reported) (h : CutsTo reported os os') :
    CutsTo reported (os.map (within r)) (os'.map (within r)) :=
  cutsTo_iff_trimsTo.mpr ((cutsTo_iff_trimsTo.mp h).within hr)

end

/-! ### Joining reports -/

/-- The findings that outcomes report, in order. -/
def Outcome.reports (os : List Outcome) : List Finding :=
  os.filterMap fun
    | .report id chain => some (id, chain)
    | .done _ => none

/-- The outcomes that report some findings. -/
def Outcome.ofFindings (xs : List Finding) : List Outcome := xs.map fun x => .report x.1 x.2

/-- The outcomes `os'` are those of `os`, with some stretches of reports joined by their ids. -/
inductive Regroups : List Outcome → List Outcome → Prop where
  | nil : Regroups [] []
  | cons {os os' : List Outcome} (o : Outcome) : Regroups os os' → Regroups (o :: os) (o :: os')
  | block {os os' : List Outcome} (xs : List Finding) : Regroups os os' →
      Regroups (ofFindings xs ++ os) (ofFindings (findings (noteAll [] xs)) ++ os')

namespace Outcome

/-- The candidates of outcomes are their reports, one candidate for each. -/
theorem candidates_eq (os : List Outcome) :
    candidates os = (reports os).map Finding.candidate := by
  rw [candidates, reports, List.map_filterMap]
  refine List.filterMap_congr fun o _ => ?_
  cases o with
  | report id chain => rfl
  | done u => rfl

/-- The reports are the outcomes that are no ends. -/
theorem mem_reports {os : List Outcome} {x : Finding} : x ∈ reports os ↔ .report x.1 x.2 ∈ os := by
  rw [reports, List.mem_filterMap]
  constructor
  · rintro ⟨o, ho, hx⟩
    cases o with
    | report id chain =>
        cases hx
        exact ho
    | done u => cases hx
  · intro hx
    exact ⟨_, hx, rfl⟩

/-- Reports of a list in two parts. -/
theorem reports_append (os os' : List Outcome) : reports (os ++ os') = reports os ++ reports os' :=
  List.filterMap_append

/-- Outcomes that were made of findings report just these. -/
theorem reports_ofFindings (xs : List Finding) : reports (ofFindings xs) = xs := by
  induction xs with
  | nil => rfl
  | cons x xs ih => exact congrArg (x :: ·) ih

/-- They do not say anything about where the phrase ends. -/
theorem done_not_mem_ofFindings {xs : List Finding} {u : List TokenType} :
    .done u ∉ ofFindings xs := by
  simp [ofFindings]

/-- Outcomes without an end are their reports. -/
theorem ofFindings_reports {os : List Outcome} (h : ∀ u, .done u ∉ os) :
    ofFindings (reports os) = os := by
  induction os with
  | nil => rfl
  | cons o os ih =>
      have hrest := ih fun u hu => h u (List.mem_cons_of_mem _ hu)
      cases o with
      | report id chain => exact congrArg (.report id chain :: ·) hrest
      | done u => exact absurd List.mem_cons_self (h u)

/-- So what comes behind them is never reached. -/
theorem andThen_ofFindings (xs : List Finding) (f : List TokenType → List Outcome) :
    andThen (ofFindings xs) f = ofFindings xs := by
  induction xs with
  | nil => rfl
  | cons x xs ih => exact congrArg (.report x.1 x.2 :: ·) ih

/-- Below a rule the findings get the rule in front of their chains. -/
theorem map_within_ofFindings (r : RuleIndex) (xs : List Finding) :
    (ofFindings xs).map (within r) = ofFindings (xs.map (Finding.under r)) := by
  simp [ofFindings, within, Finding.under]

end Outcome

namespace Regroups

variable {os os' : List Outcome}

/-- Nothing has to be joined. -/
theorem refl (os : List Outcome) : Regroups os os := by
  induction os with
  | nil => exact .nil
  | cons o os ih => exact .cons o ih

/-- What is joined in two parts of a list is joined in the list. -/
theorem append {ps ps' : List Outcome} (h : Regroups os os') (h' : Regroups ps ps') :
    Regroups (os ++ ps) (os' ++ ps') := by
  induction h with
  | nil => exact h'
  | cons o _ ih => exact .cons o ih
  | block xs _ ih =>
      rw [List.append_assoc, List.append_assoc]
      exact .block xs ih

/-- Joining is about reports. Where a phrase can end stays the same. -/
theorem done_iff {u : List TokenType} (h : Regroups os os') : .done u ∈ os ↔ .done u ∈ os' := by
  induction h with
  | nil => rfl
  | cons o _ ih => rw [List.mem_cons, List.mem_cons, ih]
  | block xs _ ih =>
      rw [List.mem_append, List.mem_append, ih, or_iff_right done_not_mem_ofFindings,
        or_iff_right done_not_mem_ofFindings]

/-- Joining is kept when phrases are put together. A stretch that is joined holds no end, so nothing
comes in between its reports. -/
theorem andThen {f f' : List TokenType → List Outcome} (h : Regroups os os')
    (hf : ∀ u, .done u ∈ os → Regroups (f u) (f' u)) :
    Regroups (Outcome.andThen os f) (Outcome.andThen os' f') := by
  induction h with
  | nil => exact .nil
  | @cons os os' o _ ih =>
      have hrest := ih fun u hu => hf u (List.mem_cons_of_mem _ hu)
      cases o with
      | report id chain => exact .cons _ hrest
      -- Behind an end the two continuations are compared, and then the rest of the outcomes.
      | done u => exact append (hf u List.mem_cons_self) hrest
  | block xs _ ih =>
      rw [andThen_append, andThen_append, andThen_ofFindings, andThen_ofFindings]
      exact .block xs (ih fun u hu => hf u (List.mem_append_right _ hu))

/-- Comparing by `Regroups` can be carried from calls to phrases. -/
theorem relating : Relating Regroups where
  done_iff := done_iff
  done _ := refl _
  symbols _ _ := refl _
  append := append
  andThen := andThen

/-- Within a rule reports are joined as before. -/
theorem within (r : RuleIndex) (h : Regroups os os') :
    Regroups (os.map (within r)) (os'.map (within r)) := by
  induction h with
  | nil => exact .nil
  | cons o _ ih => exact .cons _ ih
  | block xs _ ih =>
      have hunder := noteAll_map_under r [] xs
      rw [List.map_nil] at hunder
      rw [List.map_append, List.map_append, map_within_ofFindings, map_within_ofFindings,
        ← findings_map_under, ← hunder]
      exact .block _ ih

/-- Noting the reports of either list comes to the same, whatever was noted before. For a stretch
that is joined this is `noteAll_findings`. -/
theorem noteAll_eq (h : Regroups os os') (m : List Candidate) :
    noteAll m (reports os) = noteAll m (reports os') := by
  induction h generalizing m with
  | nil => rfl
  | cons o _ ih =>
      cases o with
      | report id chain => exact ih _
      | done u => exact ih m
  | block xs _ ih =>
      rw [reports_append, reports_append, noteAll_append, noteAll_append, reports_ofFindings,
        reports_ofFindings, noteAll_findings, ih]

/-- Joining some reports before makes no difference to the candidates in the end. -/
theorem merge_eq (h : Regroups os os') : merge (candidates os) = merge (candidates os') := by
  rw [candidates_eq, candidates_eq, merge_map_candidate, merge_map_candidate, h.noteAll_eq]

end Regroups

end Caret
