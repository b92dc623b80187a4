import Caret.Proofs.Comparison

/-!
# `Caret.Proofs.Agreement`: comparing the ids that searches report

A search through a phrase is followed by whatever comes behind the phrase. `idsThen os f` lists the
ids that are reported on the whole, in order, if `f u` is reported behind each end that leaves `u`.
Two searches agree (`Agree`) if these lists compare well whenever the lists behind the ends do. How
lists of ids are compared is left open; repetitions must not count (`Lenient`).

At the caret, a rule that is called at a higher level admits only the first of its operators. A
search that ignores the level reports the others as well. They are a debt of the call: the operators
of the rule are looked at again behind the call, at the level where it was made, and at the lowest
level all of them are admitted. So calls of a rule need to agree only where the debt is paid behind
them. `relatingBy_agree` states that this is kept when phrases are put together, and
`Enumerates.agree_zero` that ignoring the level leaves such a debt.
-/

set_option autoImplicit false

namespace Caret

open Outcome

/-! ### Ids -/

/-- The ids that are reported on the whole, if `f u` is reported behind each end that leaves `u`. -/
def Outcome.idsThen (os : List Outcome) (f : List TokenType → List SuggestionId) :
    List SuggestionId :=
  os.flatMap fun
    | .report id _ => [id]
    | .done u => f u

namespace Outcome

variable {os : List Outcome} {f : List TokenType → List SuggestionId}

/-- An end is replaced by what comes behind it. -/
theorem idsThen_done (u : List TokenType) (os : List Outcome)
    (f : List TokenType → List SuggestionId) :
    idsThen (.done u :: os) f = f u ++ idsThen os f := rfl

/-- Ids of a list in two parts. -/
theorem idsThen_append (os os' : List Outcome) (f : List TokenType → List SuggestionId) :
    idsThen (os ++ os') f = idsThen os f ++ idsThen os' f := List.flatMap_append

/-- What comes behind two phrases comes behind the second one, and that comes behind the first
one. -/
theorem idsThen_andThen (os : List Outcome) (g : List TokenType → List Outcome)
    (f : List TokenType → List SuggestionId) :
    idsThen (andThen os g) f = idsThen os fun u => idsThen (g u) f := by
  induction os with
  | nil => rfl
  | cons o os ih =>
      cases o with
      | report id chain => exact congrArg (id :: ·) ih
      -- What comes behind the first end comes in front of what the other ends lead to.
      | done u =>
          show idsThen (g u ++ andThen os g) f = _
          rw [idsThen_append, ih, idsThen_done]

/-- Below a rule the chains change and the ids do not. -/
theorem idsThen_map_within (r : RuleIndex) (os : List Outcome)
    (f : List TokenType → List SuggestionId) : idsThen (os.map (within r)) f = idsThen os f := by
  rw [idsThen, List.flatMap_map]
  refine List.flatMap_congr fun o _ => ?_
  cases o with
  | report id chain => rfl
  | done u => rfl

/-- Findings have no end, so nothing comes behind them. -/
theorem idsThen_ofFindings (xs : List Finding) (f : List TokenType → List SuggestionId) :
    idsThen (ofFindings xs) f = xs.map Prod.fst := by
  induction xs with
  | nil => rfl
  | cons x xs ih => exact congrArg (x.1 :: ·) ih

/-- An id is reported by the phrase itself or behind one of its ends. -/
theorem mem_idsThen {id : SuggestionId} : id ∈ idsThen os f ↔
    (∃ chain, .report id chain ∈ os) ∨ ∃ u, .done u ∈ os ∧ id ∈ f u := by
  rw [idsThen, List.mem_flatMap]
  constructor
  · rintro ⟨o, ho, hid⟩
    cases o with
    | report id' chain =>
        obtain rfl := List.mem_singleton.mp hid
        exact Or.inl ⟨chain, ho⟩
    | done u => exact Or.inr ⟨u, ho, hid⟩
  · rintro (⟨chain, ho⟩ | ⟨u, ho, hid⟩)
    · exact ⟨_, ho, List.mem_singleton_self id⟩
    · exact ⟨_, ho, hid⟩

/-- Without anything behind the ends, the ids are those of the reports. -/
theorem idsThen_nil (os : List Outcome) :
    idsThen os (fun _ => []) = (reports os).map Prod.fst := by
  induction os with
  | nil => rfl
  | cons o os ih =>
      cases o with
      | report id chain => exact congrArg (id :: ·) ih
      | done u => exact ih

end Outcome

/-! ### Comparing ids -/

/-- A comparison of ids where it does not count if what is there already is reported again. -/
structure Lenient (R : List SuggestionId → List SuggestionId → Prop) : Prop where
  refl : ∀ is, R is is
  trans : ∀ {is js ks : List SuggestionId}, R is js → R js ks → R is ks
  append : ∀ {is is' js js' : List SuggestionId}, R is is' → R js js' → R (is ++ js) (is' ++ js')
  again : ∀ is js, R (is ++ js) (is ++ js ++ is)
  once : ∀ is js, R (is ++ js ++ is) (is ++ js)

section

variable {R : List SuggestionId → List SuggestionId → Prop} {is js ks : List SuggestionId}

/-- If what comes behind covers some ids, so it does behind the first of them. -/
theorem Lenient.extend (hR : Lenient R) (h : R ks (is ++ js ++ ks)) :
    R (is ++ ks) (is ++ js ++ ks) := by
  -- All of the ids are put in front of `ks`, and then the first of them stand there twice.
  have hfirst : R (is ++ ks) (is ++ is ++ (js ++ ks)) := by
    have happend := hR.append (hR.refl is) h
    rwa [List.append_assoc, ← List.append_assoc is is] at happend
  have hone : R (is ++ is) is := by
    have honce := hR.once is []
    rwa [List.append_nil] at honce
  have hlast := hR.append hone (hR.refl (js ++ ks))
  rw [List.append_assoc is js ks]
  exact hR.trans hfirst hlast

/-- If what comes behind covers some ids, the first of them may come again in between. -/
theorem Lenient.cover (hR : Lenient R) (h : R ks (is ++ js ++ ks)) :
    R (is ++ ks) (is ++ js ++ (is ++ ks)) := by
  have hagain := hR.append (hR.again is js) (hR.refl ks)
  rw [List.append_assoc (is ++ js)] at hagain
  exact hR.trans (hR.extend h) hagain

end

/-- Both lists have the same ids, but for some that may be lost. -/
def Retains (lost : SuggestionId → Prop) (is js : List SuggestionId) : Prop :=
  (∀ id ∈ js, id ∈ is) ∧ ∀ id ∈ is, id ∈ js ∨ lost id

/-- If no id is lost, the order does not matter. -/
theorem Retains.of_mem_iff {lost : SuggestionId → Prop} {is js : List SuggestionId}
    (h : ∀ id, id ∈ js ↔ id ∈ is) : Retains lost is js :=
  ⟨fun id hid => (h id).mp hid, fun id hid => Or.inl ((h id).mpr hid)⟩

/-- Comparing ids as sets does not count repetitions, also if some ids may be lost. -/
theorem lenient_retains (lost : SuggestionId → Prop) : Lenient (Retains lost) where
  refl is := .of_mem_iff fun _ => Iff.rfl
  trans h h' := by
    refine ⟨fun id hid => h.1 id (h'.1 id hid), fun id hid => ?_⟩
    -- An id that is lost at the first step is lost on the whole.
    rcases h.2 id hid with hid | hlost
    · exact h'.2 id hid
    · exact Or.inr hlost
  append h h' := by
    refine ⟨fun id hid => ?_, fun id hid => ?_⟩
    · exact List.mem_append.mpr ((List.mem_append.mp hid).imp (h.1 id) (h'.1 id))
    · rw [List.mem_append]
      rcases List.mem_append.mp hid with hid | hid
      · exact (h.2 id hid).imp_left Or.inl
      · exact (h'.2 id hid).imp_left Or.inr
  again is js := .of_mem_iff fun id => by grind
  once is js := .of_mem_iff fun id => by grind

/-- Both lists have the same ids, and they come up in the same order. -/
def SameOrder (is js : List SuggestionId) : Prop := ∀ seen, addIds seen is = addIds seen js

/-- Neither does comparing the order in which ids come up for the first time. -/
theorem lenient_sameOrder : Lenient SameOrder where
  refl _ _ := rfl
  trans h h' seen := (h seen).trans (h' seen)
  append h h' seen := by rw [addIds_append, addIds_append, h, h']
  again is js seen := (addIds_again seen is js).symm
  once is js seen := addIds_again seen is js

/-! ### Outcomes that agree -/

/-- The ids compare well, whatever comes behind the ends, if the ids in `owed` are covered behind an
end at the caret. -/
structure Agree (R : List SuggestionId → List SuggestionId → Prop) (owed : List SuggestionId)
    (os os' : List Outcome) : Prop where
  done_iff : ∀ u, .done u ∈ os ↔ .done u ∈ os'
  ids : ∀ f f', (∀ u, .done u ∈ os → R (f u) (f' u)) →
    (.done [] ∈ os → R (f []) (owed ++ f [])) → R (idsThen os f) (idsThen os' f')

namespace Agree

variable {R : List SuggestionId → List SuggestionId → Prop} {owed owed' : List SuggestionId}
  {os os' : List Outcome}

/-- Equal outcomes agree, whatever is owed. -/
theorem refl (hR : Lenient R) (owed : List SuggestionId) (os : List Outcome) :
    Agree R owed os os := by
  refine ⟨fun u => Iff.rfl, fun f f' hf hpaid => ?_⟩
  -- Nothing is owed between equal outcomes, so it does not matter what is covered behind them.
  clear hpaid
  induction os with
  | nil => exact hR.refl []
  | cons o os ih =>
      have hrest := ih fun u hu => hf u (List.mem_cons_of_mem _ hu)
      cases o with
      | report id chain => exact hR.append (hR.refl [id]) hrest
      | done u => exact hR.append (hf u List.mem_cons_self) hrest

/-- Outcomes that agree without a debt agree with one. -/
theorem of_nil (hR : Lenient R) (h : Agree R [] os os') : Agree R owed os os' :=
  ⟨h.done_iff, fun f f' hf _ => h.ids f f' hf fun _ => hR.refl _⟩

/-- Only the first of two steps may leave a debt. The second one is then compared without one. -/
theorem trans (hR : Lenient R) {os'' : List Outcome} (h : Agree R owed os os')
    (h' : Agree R [] os' os'') : Agree R owed os os'' := by
  refine ⟨fun u => (h.done_iff u).trans (h'.done_iff u), fun f f' hf hpaid => ?_⟩
  have hfirst := h.ids f f' hf hpaid
  exact hR.trans hfirst (h'.ids f' f' (fun u _ => hR.refl _) fun _ => hR.refl _)

/-- Alternatives that agree one by one agree. They share the debt, since the same comes behind
both. -/
theorem append (hR : Lenient R) {ps ps' : List Outcome} (h : Agree R owed os os')
    (h' : Agree R owed ps ps') : Agree R owed (os ++ ps) (os' ++ ps') := by
  refine ⟨fun u => ?_, fun f f' hf hpaid => ?_⟩
  · rw [List.mem_append, List.mem_append, h.done_iff, h'.done_iff]
  · -- Both parts are asked for less than the whole, so each is given what the whole is given.
    rw [idsThen_append, idsThen_append]
    refine hR.append (h.ids f f' ?_ ?_) (h'.ids f f' ?_ ?_)
    · exact fun u hu => hf u (List.mem_append_left _ hu)
    · exact fun hu => hpaid (List.mem_append_left _ hu)
    · exact fun u hu => hf u (List.mem_append_right _ hu)
    · exact fun hu => hpaid (List.mem_append_right _ hu)

/-- Two phrases one after the other. What the first one owes is covered by the second one, together
with what comes behind both. -/
theorem andThen_of_covered {g g' : List TokenType → List Outcome} (h : Agree R owed' os os')
    (hg : ∀ u, .done u ∈ os → Agree R owed (g u) (g' u))
    (hcovered : .done [] ∈ os → ∀ f : List TokenType → List SuggestionId,
      (.done [] ∈ g [] → R (f []) (owed ++ f [])) →
        R (idsThen (g []) f) (owed' ++ idsThen (g []) f)) :
    Agree R owed (andThen os g) (andThen os' g') := by
  refine ⟨fun u => ?_, fun f f' hf hpaid => ?_⟩
  · rw [done_mem_andThen, done_mem_andThen]
    refine exists_congr fun v => ?_
    rw [← h.done_iff]
    exact and_congr_right fun hv => (hg v hv).done_iff u
  · rw [idsThen_andThen, idsThen_andThen]
    refine h.ids _ _ (fun u hu => (hg u hu).ids f f' ?_ ?_) fun hu => hcovered hu f ?_
    · exact fun u' hu' => hf u' (done_mem_andThen.mpr ⟨u, hu, hu'⟩)
    · exact fun hu' => hpaid (done_mem_andThen.mpr ⟨u, hu, hu'⟩)
    · exact fun hu' => hpaid (done_mem_andThen.mpr ⟨[], hu, hu'⟩)

/-- Two phrases of which the first owes nothing. -/
theorem andThen (hR : Lenient R) {g g' : List TokenType → List Outcome} (h : Agree R [] os os')
    (hg : ∀ u, .done u ∈ os → Agree R owed (g u) (g' u)) :
    Agree R owed (Outcome.andThen os g) (Outcome.andThen os' g') :=
  h.andThen_of_covered hg fun _ _ _ => hR.refl _

/-- Outcomes that agree have ids that compare well, if nothing comes behind them. -/
theorem rel (hR : Lenient R) (h : Agree R [] os os') :
    R (idsThen os fun _ => []) (idsThen os' fun _ => []) :=
  h.ids _ _ (fun _ _ => hR.refl []) fun _ => hR.refl []

/-- Below a rule nothing changes, as the comparison does not look at chains. -/
theorem within (r : RuleIndex) (h : Agree R owed os os') :
    Agree R owed (os.map (within r)) (os'.map (within r)) := by
  refine ⟨fun u => ?_, fun f f' hf hpaid => ?_⟩
  · rw [done_mem_map_within, done_mem_map_within, h.done_iff]
  · rw [idsThen_map_within, idsThen_map_within]
    refine h.ids f f' (fun u hu => hf u (done_mem_map_within.mpr hu)) fun hu => ?_
    exact hpaid (done_mem_map_within.mpr hu)

end Agree

/-! ### Operators at the caret -/

section

variable {τ ρ : Type} {d : Definitions τ ρ} {answers : Answers} {r : RuleIndex} {level : Int}
  {next : Nat} {os os₀ : List Outcome}

/-- At the caret no operator is passed. -/
def OperatorsRead (d : Definitions τ ρ) (answers : Answers) : Prop :=
  ∀ r primaries operators, d.body r = some (.precedence primaries operators) →
    ∀ e ∈ operators, ∀ os, Enumerates d answers (.expr e) [] os → ∀ u, .done u ∉ os

/-- An operator at the caret reports what it starts with, and nothing comes behind it. -/
theorem OperatorsRead.andThen_eq (hread : OperatorsRead d answers)
    {primaries operators : List (Expr τ ρ)} {e : Expr τ ρ} {f g : List TokenType → List Outcome}
    (hb : d.body r = some (.precedence primaries operators)) (he : operators[next]? = some e)
    (h : Enumerates d answers (.expr e) [] os) :
    andThen (andThen os f) g = ofFindings (reports os) := by
  have hnone := hread r _ _ hb e (List.mem_of_getElem? he) os h
  rw [← ofFindings_reports hnone, andThen_ofFindings, andThen_ofFindings, reports_ofFindings]

/-- At the caret the operators are looked at in order and then left. At a higher level only the
first of them are looked at, up to the first one that is not admitted. -/
theorem Enumerates.loop_at_caret (hread : OperatorsRead d answers)
    (h : Enumerates d answers (.loop r level next) [] os)
    (h₀ : Enumerates d answers (.loop r 0 next) [] os₀) :
    ∃ xs ys, os = ofFindings xs ++ [.done []] ∧ os₀ = ofFindings (xs ++ ys) ++ [.done []] ∧
      ∀ primaries operators, d.body r = some (.precedence primaries operators) →
        (operators.length : Int) - next < level → xs = [] := by
  -- The induction is along the operators from `next` on. The search at level zero takes the same
  -- operators, and more of them once one is skipped.
  generalize hx : Phrase.loop r level next = x at h
  generalize hv : ([] : List TokenType) = v at h
  induction h generalizing next os₀ with
  | loopEnd hb hend =>
      cases hx
      subst hv
      cases h₀ with
      | loopEnd _ _ => exact ⟨[], [], rfl, rfl, fun _ _ _ _ => rfl⟩
      | loopSkip hb' hlt _ _ =>
          obtain ⟨-, rfl⟩ := Body.precedence.inj (Option.some.inj (hb.symm.trans hb'))
          omega
      | loopMore hb' he _ _ _ _ _ =>
          obtain ⟨-, rfl⟩ := Body.precedence.inj (Option.some.inj (hb.symm.trans hb'))
          have hlt := (List.getElem?_eq_some_iff.mp he).1
          omega
  | loopSkip hb hlt hlevel _ ih =>
      cases hx
      subst hv
      cases h₀ with
      | loopEnd hb' hend =>
          obtain ⟨-, rfl⟩ := Body.precedence.inj (Option.some.inj (hb.symm.trans hb'))
          omega
      | loopSkip hb' hlt' hlevel' _ => omega
      | @loopMore _ _ _ _ _ _ _ ps _ _ _ hb' he' _ hfirst _ _ hrest =>
          -- The operators behind one that is not admitted are not admitted either, so at this level
          -- nothing is reported from here on.
          obtain ⟨xs, ys, rfl, rfl, hnone⟩ := ih hrest rfl rfl
          obtain rfl : xs = [] := hnone _ _ hb (by push_cast; omega)
          refine ⟨[], reports ps ++ ys, rfl, ?_, fun _ _ _ _ => rfl⟩
          rw [hread.andThen_eq hb' he' hfirst]
          simp [ofFindings]
  | @loopMore _ _ _ _ _ _ _ ps _ _ _ hb he hlevel hfirst _ _ _ _ _ _ ih =>
      cases hx
      subst hv
      cases h₀ with
      | loopEnd hb' hend =>
          obtain ⟨-, rfl⟩ := Body.precedence.inj (Option.some.inj (hb.symm.trans hb'))
          have hlt := (List.getElem?_eq_some_iff.mp he).1
          omega
      | loopSkip hb' hlt' hlevel' _ => omega
      | loopMore hb' he' _ hfirst' _ _ hrest =>
          obtain ⟨-, rfl⟩ := Body.precedence.inj (Option.some.inj (hb.symm.trans hb'))
          obtain rfl := Option.some.inj (he.symm.trans he')
          obtain rfl := hfirst.deterministic hfirst'
          obtain ⟨xs, ys, rfl, rfl, -⟩ := ih hrest rfl rfl
          refine ⟨reports ps ++ xs, ys, ?_, ?_, fun _ _ hb'' hlt => ?_⟩
          · rw [hread.andThen_eq hb he hfirst]
            simp [ofFindings]
          · rw [hread.andThen_eq hb he hfirst]
            simp [ofFindings]
          · obtain ⟨-, rfl⟩ := Body.precedence.inj (Option.some.inj (hb.symm.trans hb''))
            omega
  | _ => cases hx

end

/-! ### Debts -/

/-- What is owed where a phrase stands: at a higher level the operators of the rule. -/
def Phrase.debt {τ ρ : Type} (owed : RuleIndex → List SuggestionId) :
    Phrase τ ρ → List SuggestionId
  | .expr _ => []
  | .rule r level => if level = 0 then [] else owed r
  | .body r level => if level = 0 then [] else owed r
  | .loop r level _ => if level = 0 then [] else owed r

/-- The operators of each rule start with the ids in `owed`. -/
def StartsOperators {τ ρ : Type} (d : Definitions τ ρ) (answers : Answers)
    (owed : RuleIndex → List SuggestionId) : Prop :=
  ∀ r primaries operators, d.body r = some (.precedence primaries operators) →
    ∃ os, Enumerates d answers (.loop r 0 0) [] os ∧ owed r = (reports os).map Prod.fst

section

variable {τ ρ : Type} {d : Definitions τ ρ} {answers : Answers} {r : RuleIndex} {level : Int}
  {owed : RuleIndex → List SuggestionId} {os os₀ : List Outcome}
  {primaries operators : List (Expr τ ρ)} {R : List SuggestionId → List SuggestionId → Prop}

/-- At the caret the operators of a rule report the first of the ids that are owed, and at level
zero all of them. Then they are left. -/
theorem StartsOperators.idsThen_loop (howed : StartsOperators d answers owed)
    (hread : OperatorsRead d answers) (hb : d.body r = some (.precedence primaries operators))
    (h : Enumerates d answers (.loop r level 0) [] os) :
    ∃ is js, owed r = is ++ js ∧ (level = 0 → js = []) ∧ (∀ u, .done u ∈ os ↔ u = []) ∧
      ∀ f, idsThen os f = is ++ f [] := by
  obtain ⟨os₀, h₀, heq⟩ := howed r _ _ hb
  obtain ⟨xs, ys, rfl, rfl, -⟩ := h.loop_at_caret hread h₀
  refine ⟨xs.map Prod.fst, ys.map Prod.fst, ?_, ?_, fun u => by simp [ofFindings], fun f => ?_⟩
  · have hreports : reports (ofFindings (xs ++ ys) ++ [.done []]) = xs ++ ys := by
      rw [reports_append, reports_ofFindings]
      exact List.append_nil _
    rw [heq, hreports, List.map_append]
  · -- At level zero the two searches are the same, so they have as many reports.
    rintro rfl
    have hlength := congrArg List.length (h.deterministic h₀)
    simp [ofFindings] at hlength
    simp [hlength]
  · rw [idsThen_append, idsThen_ofFindings, idsThen_done]
    exact congrArg _ (List.append_nil _)

/-- Behind a call of a rule, further operators cover what the call owes. -/
theorem StartsOperators.covered (hR : Lenient R) (howed : StartsOperators d answers owed)
    (hread : OperatorsRead d answers) (hb : d.body r = some (.precedence primaries operators))
    (h : Enumerates d answers (.loop r level 0) [] os) (f : List TokenType → List SuggestionId)
    (hpaid : .done [] ∈ os →
      R (f []) ((Phrase.loop r level 0 : Phrase τ ρ).debt owed ++ f [])) :
    R (idsThen os f) (owed r ++ idsThen os f) := by
  obtain ⟨is, js, heq, hall, hdone, hids⟩ := howed.idsThen_loop hread hb h
  rw [hids, heq]
  by_cases hlevel : level = 0
  · -- All operators are admitted here, so they are reported once more.
    rw [hall hlevel]
    have hagain := hR.append (hR.again is []) (hR.refl (f []))
    rw [List.append_assoc (is ++ [])] at hagain
    rwa [List.append_nil] at hagain ⊢
  · -- What is not admitted here is covered further behind.
    have hrest := hpaid ((hdone []).mpr rfl)
    rw [Phrase.debt, if_neg hlevel, heq] at hrest
    exact hR.cover hrest

/-- At the caret, operators agree with those at level zero, up to what is owed. -/
theorem StartsOperators.agree_zero (hR : Lenient R) (howed : StartsOperators d answers owed)
    (hread : OperatorsRead d answers) (hb : d.body r = some (.precedence primaries operators))
    (h : Enumerates d answers (.loop r level 0) [] os)
    (h₀ : Enumerates d answers (.loop r 0 0) [] os₀) : Agree R (owed r) os os₀ := by
  obtain ⟨is, js, heq, -, hdone, hids⟩ := howed.idsThen_loop hread hb h
  obtain ⟨is₀, js₀, heq₀, hall₀, hdone₀, hids₀⟩ := howed.idsThen_loop hread hb h₀
  rw [hall₀ rfl, List.append_nil] at heq₀
  refine ⟨fun u => (hdone u).trans (hdone₀ u).symm, fun f f' hf hpaid => ?_⟩
  have hend := (hdone []).mpr rfl
  have hrest := hpaid hend
  rw [heq] at hrest
  rw [hids, hids₀, ← heq₀, heq]
  exact hR.trans (hR.extend hrest) (hR.append (hR.refl _) (hf [] hend))

/-- Agreement, up to what is owed, is kept when phrases are put together. -/
theorem relatingBy_agree (hR : Lenient R) (howed : StartsOperators d answers owed)
    (hread : OperatorsRead d answers) :
    RelatingBy d answers fun x => Agree R (x.debt owed) where
  done_iff h := h.done_iff _
  done _ _ := .refl hR _ _
  symbols _ _ _ := .refl hR _ _
  append := .append hR
  andThen := .andThen hR
  expr _ := .of_nil hR
  ref _ h := h
  loop _ h := h
  body h := h
  operator {r level next primaries operators e os os' f f' g g'} hb he h hf hloop hg := by
    -- The right operand is called above level zero, so it owes all operators of the rule.
    have hlt := (List.getElem?_eq_some_iff.mp he).1
    have hdebt : (Phrase.rule r (operators.length - next + 1) : Phrase τ ρ).debt owed = owed r :=
      if_neg (by omega)
    have hboth : Agree R (owed r) (andThen os f) (andThen os' f') :=
      hdebt ▸ Agree.andThen hR h hf
    exact hboth.andThen_of_covered hg fun hdone k hpaid =>
      howed.covered hR hread hb (hloop [] hdone) k hpaid

/-- At the caret, a rule agrees with the rule at level zero, up to what is owed. -/
theorem Enumerates.agree_zero (hR : Lenient R) (howed : StartsOperators d answers owed)
    (hread : OperatorsRead d answers) (h : Enumerates d answers (.rule r level) [] os)
    (h₀ : Enumerates d answers (.rule r 0) [] os₀) :
    Agree R ((Phrase.rule r level : Phrase τ ρ).debt owed) os os₀ := by
  by_cases hlevel : level = 0
  · subst hlevel
    rw [h.deterministic h₀]
    exact .refl hR _ _
  rw [Phrase.debt, if_neg hlevel]
  -- A call is answered at both levels or at none, because answers do not look at the level.
  cases h with
  | answered ha =>
      cases h₀ with
      | answered ha' =>
          cases ha.symm.trans ha'
          exact .refl hR _ _
      | entered ha' _ => cases ha.symm.trans ha'
  | entered ha hbody =>
      cases h₀ with
      | answered ha' => cases ha.symm.trans ha'
      | entered _ hbody₀ =>
          refine .within r ?_
          cases hbody with
          -- A rule without operators does not look at the level.
          | plain hb h =>
              cases hbody₀ with
              | plain hb' h' =>
                  cases hb.symm.trans hb'
                  rw [h.deterministic h']
                  exact .refl hR _ _
              | precedence hb' _ _ => cases hb.symm.trans hb'
          | precedence hb hfirst hloop =>
              cases hbody₀ with
              | plain hb' _ => cases hb.symm.trans hb'
              | precedence hb' hfirst' hloop' =>
                  cases hb.symm.trans hb'
                  obtain rfl := hfirst.deterministic hfirst'
                  -- The primaries are the same, and the operators behind them differ.
                  refine .andThen hR (.refl hR _ _) fun u hu => ?_
                  obtain rfl := List.suffix_nil.mp (hfirst.suffix hu)
                  exact howed.agree_zero hR hread hb (hloop [] hu) (hloop' [] hu)

end

end Caret
