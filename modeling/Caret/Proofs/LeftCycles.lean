import Mathlib
import Caret.Proofs.LeftRecursion
import Caret.Proofs.Reach

/-!
# `Caret.Proofs.LeftCycles`: the search for left recursion is exact

A rule calls another one first if the call can happen before a token is read. `leftCycles` lists
cycles of such calls, and `leftCycles_exact` says which ones: every list goes once round a cycle,
none is listed exactly if there is no cycle, and for a rule on any cycle one is listed among the
rules that call each other with it.

That the lists are cycles follows from the path of the search (`SearchPath`): each rule on it is
called by the next outer one, and none is on it twice. That no cycle is left out altogether is
`settled_of_leftCycles`, applied to the calls within the rules that call each other.
-/

set_option autoImplicit false

namespace Caret

open Relation

/-! ### Elementary cycles -/

section Cycle

variable {α β : Type} {E : α → α → Prop} {cycle : List α}

/-- The list goes from an element along `E` back to it, and meets no element twice in between. -/
def IsElementaryCycle (E : α → α → Prop) (cycle : List α) : Prop :=
  ∃ first others, cycle = first :: others ++ [first] ∧ (first :: others).Nodup ∧ cycle.IsChain E

/-- The members of a cycle lead to each other. -/
theorem IsElementaryCycle.transGen (h : IsElementaryCycle E cycle) {a b : α} (ha : a ∈ cycle)
    (hb : b ∈ cycle) : TransGen E a b := by
  obtain ⟨first, others, rfl, -, hchain⟩ := h
  -- Along the list each member leads to all later ones, and the first one is also the last.
  have hpairs : (first :: others ++ [first]).Pairwise (TransGen E) :=
    (hchain.imp fun _ _ => TransGen.single).pairwise
  have hfrom : ∀ c ∈ others ++ [first], TransGen E first c := (List.pairwise_cons.mp hpairs).1
  have hto : ∀ c ∈ first :: others, TransGen E c first := fun c hc =>
    (List.pairwise_append.mp hpairs).2.2 c hc first (by simp)
  have hself : TransGen E first first := hto first List.mem_cons_self
  have hafirst : TransGen E a first := by
    rcases List.mem_append.mp ha with ha | ha
    · exact hto a ha
    · exact List.mem_singleton.mp ha ▸ hself
  have hfirstb : TransGen E first b := by
    rcases List.mem_cons.mp hb with rfl | hb
    · exact hself
    · exact hfrom b hb
  exact hafirst.trans hfirstb

/-- A cycle stays one under a map that keeps its members apart. -/
theorem IsElementaryCycle.map {F : β → β → Prop} (h : IsElementaryCycle E cycle) {f : α → β}
    (hinj : ∀ a ∈ cycle, ∀ b ∈ cycle, f a = f b → a = b)
    (hmap : ∀ a ∈ cycle, ∀ b ∈ cycle, E a b → F (f a) (f b)) :
    IsElementaryCycle F (cycle.map f) := by
  obtain ⟨first, others, rfl, hnodup, hchain⟩ := h
  refine ⟨f first, others.map f, by simp, ?_, ?_⟩
  · rw [← List.map_cons]
    refine List.Nodup.map_on (fun a ha b hb => ?_) hnodup
    exact hinj a (List.mem_append_left _ ha) b (List.mem_append_left _ hb)
  · rw [List.isChain_map]
    exact hchain.imp_of_mem_imp fun a b ha hb => hmap a ha b hb

end Cycle

/-! ### What the search lists -/

section Search

variable {calls : RuleIndex → List RuleIndex}

/-- What holds of the path of a search: it follows calls outwards, no rule is on it twice, its rules
are marked as seen, and what is still to be looked at are calls. -/
structure SearchPath (calls : RuleIndex → List RuleIndex) (seen : Array Bool)
    (path : List (RuleIndex × List RuleIndex)) : Prop where
  nodup : (path.map Prod.fst).Nodup
  chain : (path.map Prod.fst).IsChain fun callee caller => callee ∈ calls caller
  seen : ∀ r ∈ path.map Prod.fst, seen[r]? = some true
  rest : ∀ entry ∈ path, ∀ c ∈ entry.2, c ∈ calls entry.1

/-- A call that was looked at is dropped from what is left to do. -/
theorem SearchPath.dropCall {seen : Array Bool} {rule callee : RuleIndex} {rest : List RuleIndex}
    {above : List (RuleIndex × List RuleIndex)}
    (h : SearchPath calls seen ((rule, callee :: rest) :: above)) :
    SearchPath calls seen ((rule, rest) :: above) := by
  refine ⟨h.nodup, h.chain, h.seen, fun entry he => ?_⟩
  rcases List.mem_cons.mp he with rfl | he
  · exact fun c hc => h.rest _ List.mem_cons_self c (List.mem_cons_of_mem _ hc)
  · exact h.rest entry (List.mem_cons_of_mem _ he)

/-- A call back to a rule on the path closes a cycle. -/
theorem isElementaryCycle_closeCycle {rule callee : RuleIndex} {names : List RuleIndex}
    (hnodup : (rule :: names).Nodup)
    (hchain : (rule :: names).IsChain fun callee caller => callee ∈ calls caller)
    (hcall : callee ∈ calls rule) (hmem : callee ∈ rule :: names) :
    IsElementaryCycle (fun caller callee => callee ∈ calls caller)
      (closeCycle (rule :: names) callee) := by
  -- The path is split at the callee, and its inner part is turned round.
  obtain ⟨inner, outer, hsplit, hnot⟩ := List.eq_append_cons_of_mem hmem
  have hinner : (rule :: names).takeWhile (· ≠ callee) = inner := by
    rw [hsplit, List.takeWhile_append_of_pos (by grind), List.takeWhile_cons_of_neg (by simp),
      List.append_nil]
  rw [hsplit, ← List.singleton_append, ← List.append_assoc] at hnodup hchain
  refine ⟨callee, inner.reverse, by rw [closeCycle, hinner], ?_, ?_⟩
  · have hback : callee :: inner.reverse = (inner ++ [callee]).reverse := by simp
    rw [hback, List.nodup_reverse]
    exact hnodup.of_append_left
  · have hback : callee :: inner.reverse = (inner ++ [callee]).reverse := by simp
    rw [closeCycle, hinner, hback, List.isChain_append, List.isChain_reverse]
    refine ⟨hchain.left_of_append, by simp, ?_⟩
    -- The innermost rule makes the call that closes the cycle.
    intro a ha b hb
    rw [List.getLast?_reverse] at ha
    cases hb
    have hhead : (rule :: names).head? = (inner ++ [callee]).head? := by
      rw [hsplit]
      cases inner <;> rfl
    rw [← hhead] at ha
    cases ha
    exact hcall

/-- The lists that a search puts out are elementary cycles. -/
theorem isElementaryCycle_of_mem_cyclesFrom {seen : Array Bool}
    {path : List (RuleIndex × List RuleIndex)} (hpath : SearchPath calls seen path) :
    ∀ cycle ∈ (cyclesFrom calls seen path).2,
      IsElementaryCycle (fun caller callee => callee ∈ calls caller) cycle := by
  -- Induction on the search. It goes up, into a call, round a cycle or past a call.
  fun_induction cyclesFrom calls seen path with
  | case1 seen => simp
  | case2 seen rule above ih =>
      exact ih ⟨hpath.nodup.of_cons, hpath.chain.tail,
        fun r hr => hpath.seen r (List.mem_cons_of_mem _ hr),
        fun entry he => hpath.rest entry (List.mem_cons_of_mem _ he)⟩
  | case3 seen rule callee rest above hnew ih =>
      have hcall : callee ∈ calls rule := hpath.rest _ List.mem_cons_self callee List.mem_cons_self
      refine ih ⟨?_, ?_, ?_, ?_⟩
      · -- The rules on the path are marked, and the callee is not.
        refine List.nodup_cons.mpr ⟨fun hmem => ?_, hpath.nodup⟩
        rw [hpath.seen callee hmem] at hnew
        cases hnew
      · exact List.isChain_cons_cons.mpr ⟨hcall, hpath.chain⟩
      · intro r hr
        rw [seen_set_iff hnew]
        exact (List.mem_cons.mp hr).imp_right (hpath.seen r)
      · intro entry he
        rcases List.mem_cons.mp he with rfl | he
        · exact fun c hc => hc
        · exact hpath.dropCall.rest entry he
  | case4 seen rule callee rest above hold found names hcycle ih =>
      have hnames : callee ∈ rule :: above.map Prod.fst := by simpa [names] using hcycle
      have hcall : callee ∈ calls rule := hpath.rest _ List.mem_cons_self callee List.mem_cons_self
      simp only [if_pos hnames]
      intro cycle hmem
      rcases List.mem_cons.mp hmem with rfl | hmem
      · exact isElementaryCycle_closeCycle hpath.nodup hpath.chain hcall hnames
      · exact ih hpath.dropCall cycle hmem
  | case5 seen rule callee rest above hold found names hcycle ih =>
      have hnames : callee ∉ rule :: above.map Prod.fst := by simpa [names] using hcycle
      simp only [if_neg hnames]
      exact ih hpath.dropCall

/-- The same for searches from several rules. Each begins with a path of one rule. -/
theorem isElementaryCycle_of_mem_cyclesFromAll (roots : List RuleIndex) (seen : Array Bool) :
    ∀ cycle ∈ cyclesFromAll calls roots seen,
      IsElementaryCycle (fun caller callee => callee ∈ calls caller) cycle := by
  induction roots generalizing seen with
  | nil => simp [cyclesFromAll]
  | cons root roots ih =>
      rw [cyclesFromAll]
      split
      · rename_i hnew
        have hstart : SearchPath calls (seen.setIfInBounds root true) [(root, calls root)] :=
          ⟨by simp, by simp, by simpa using (seen_set_iff hnew root).mpr (Or.inl rfl), by simp⟩
        intro cycle hmem
        rcases List.mem_append.mp hmem with hmem | hmem
        · exact isElementaryCycle_of_mem_cyclesFrom hstart cycle hmem
        · exact ih _ cycle hmem
      · exact ih seen

end Search

/-! ### Left recursion -/

section Rules

variable {τ : Type} (rules : List (Rule τ RuleIndex))

/-- The rule `a` can call the rule `b` before a token is read. -/
def CallsFirst (a b : RuleIndex) : Prop := b ∈ leftCallsOf rules (nullableRules rules) a

/-- The name of a rule, if there is one at the position. -/
def nameAt? (r : RuleIndex) : Option String := (rules[r]?).map Rule.name

/-- The rule of the name `a` can call the rule of the name `b` before a token is read. -/
def CallsFirstByName (a b : String) : Prop :=
  ∃ i j, nameAt? rules i = some a ∧ nameAt? rules j = some b ∧ CallsFirst rules i j

/-- Each of the rules `a` and `b` leads to the other one by such calls. -/
def Connected (a b : RuleIndex) : Prop :=
  ReflTransGen (CallsFirst rules) a b ∧ ReflTransGen (CallsFirst rules) b a

variable {rules}

/-- What is listed are cycles of calls before the first token. -/
theorem isElementaryCycle_of_mem_leftCycles {cycle : List RuleIndex}
    (h : cycle ∈ leftCycles rules (nullableRules rules)) :
    IsElementaryCycle (CallsFirst rules) cycle :=
  isElementaryCycle_of_mem_cyclesFromAll _ _ cycle h

/-- A cycle through a rule stays among the rules that are connected with it. -/
theorem transGen_within {r b : RuleIndex} (hb : TransGen (CallsFirst rules) r b)
    (hback : ReflTransGen (CallsFirst rules) b r) :
    TransGen (fun a c => CallsFirst rules a c ∧ Connected rules r a ∧ Connected rules r c) r b := by
  -- `hback` is part of the induction: from every rule on the way the rest of the cycle leads back.
  induction hb with
  | single hcall => exact .single ⟨hcall, ⟨.refl, .refl⟩, .single hcall, hback⟩
  | tail hto hcall ih =>
      have hback' := ReflTransGen.head hcall hback
      have hto' := hto.to_reflTransGen
      exact .tail (ih hback') ⟨hcall, ⟨hto', hback'⟩, hto'.tail hcall, hback⟩

/-- For a rule on a cycle, some cycle is listed among the rules that are connected with it. -/
theorem exists_leftCycle_of_transGen {r : RuleIndex} (hr : TransGen (CallsFirst rules) r r) :
    ∃ cycle ∈ leftCycles rules (nullableRules rules), ∀ c ∈ cycle, Connected rules r c := by
  classical
  -- It is enough that one rule on the cycle is connected with `r`.
  suffices hsome : ∃ cycle ∈ leftCycles rules (nullableRules rules), ∃ c ∈ cycle,
      Connected rules r c by
    obtain ⟨cycle, hcycle, c, hc, hto, hback⟩ := hsome
    have helementary := isElementaryCycle_of_mem_leftCycles hcycle
    exact ⟨cycle, hcycle, fun b hb => ⟨hto.trans (helementary.transGen hc hb).to_reflTransGen,
      (helementary.transGen hb hc).to_reflTransGen.trans hback⟩⟩
  -- Otherwise calls among the rules connected with `r` come to an end, and `r` is on no cycle.
  by_contra hnone
  have hsettled : Settled (fun a => (leftCallsOf rules (nullableRules rules) a).filter fun c =>
      Connected rules r a ∧ Connected rules r c) r := by
    refine settled_of_leftCycles (fun a c hc => (List.mem_filter.mp hc).1) ?_ r
    intro cycle hcycle c hc a hmem
    have hconnected := of_decide_eq_true (List.mem_filter.mp hmem).2
    exact hnone ⟨cycle, hcycle, c, hc, hconnected.2⟩
  have hwithin := TransGen.swap _ _ (transGen_within hr .refl)
  refine not_transGen_self_of_acc hsettled (TransGen.mono (fun c a hcall => ?_) _ _ hwithin)
  exact List.mem_filter.mpr ⟨hcall.1, decide_eq_true hcall.2⟩

/-- Nothing is listed exactly if no rule is on a cycle. -/
theorem leftCycles_eq_nil_iff :
    leftCycles rules (nullableRules rules) = [] ↔ ∀ r, ¬ TransGen (CallsFirst rules) r r := by
  constructor
  · intro hnil r hr
    obtain ⟨cycle, hcycle, -⟩ := exists_leftCycle_of_transGen hr
    rw [hnil] at hcycle
    cases hcycle
  · intro hnone
    refine List.eq_nil_iff_forall_not_mem.mpr fun cycle hcycle => ?_
    have helementary := isElementaryCycle_of_mem_leftCycles hcycle
    obtain ⟨first, others, rfl, -⟩ := id helementary
    exact hnone first (helementary.transGen List.mem_cons_self List.mem_cons_self)

/-- The names of the rules on a cycle go round a cycle too, if no two rules share a name. -/
theorem isElementaryCycle_names (hnames : (rules.map Rule.name).Nodup) {cycle : List RuleIndex}
    (h : IsElementaryCycle (CallsFirst rules) cycle) :
    IsElementaryCycle (CallsFirstByName rules) (cycle.filterMap (nameAt? rules)) := by
  -- Every rule on the cycle calls one, so it is in range and has a name.
  have hname : ∀ c ∈ cycle, nameAt? rules c = some ((nameAt? rules c).getD "") := by
    intro c hc
    obtain ⟨b, hcall, -⟩ := TransGen.head'_iff.mp (h.transGen hc hc)
    cases hget : rules[c]? with
    | none => simp [CallsFirst, leftCallsOf, hget] at hcall
    | some rule => simp [nameAt?, hget]
  have hmap : cycle.filterMap (nameAt? rules) = cycle.map fun c => (nameAt? rules c).getD "" := by
    rw [← List.filterMap_eq_map, List.filterMap_congr hname]
    rfl
  rw [hmap]
  refine h.map (fun a ha b hb heq => ?_) fun a ha b hb hcall =>
    ⟨a, b, hname a ha, hname b hb, hcall⟩
  have hlt : a < (rules.map Rule.name).length := by
    have hsome := hname a ha
    rw [nameAt?, ← List.getElem?_map] at hsome
    exact (List.getElem?_eq_some_iff.mp hsome).1
  -- Names are apart, so two positions with the same name are one.
  refine (List.getElem?_inj hlt hnames).mp ?_
  rw [List.getElem?_map, List.getElem?_map]
  exact (hname a ha).trans ((congrArg some heq).trans (hname b hb).symm)

/-- Of the calls that can happen before a token is read, none goes round exactly if no cycle is
listed. Every list goes once round a cycle, by positions and by names. For a rule on any cycle, one
is listed among the rules that are connected with it. -/
theorem leftCycles_exact (hnames : (rules.map Rule.name).Nodup) :
    (leftCycles rules (nullableRules rules) = [] ↔ ∀ r, ¬ TransGen (CallsFirst rules) r r) ∧
      (∀ cycle ∈ leftCycles rules (nullableRules rules),
        IsElementaryCycle (CallsFirst rules) cycle ∧
          IsElementaryCycle (CallsFirstByName rules) (cycle.filterMap (nameAt? rules))) ∧
      ∀ r, TransGen (CallsFirst rules) r r →
        ∃ cycle ∈ leftCycles rules (nullableRules rules), ∀ c ∈ cycle, Connected rules r c := by
  refine ⟨leftCycles_eq_nil_iff, fun cycle hcycle => ?_, fun r => exists_leftCycle_of_transGen⟩
  have helementary := isElementaryCycle_of_mem_leftCycles hcycle
  exact ⟨helementary, isElementaryCycle_names hnames helementary⟩

end Rules

/-- Rules where a sum begins with a term and a term can be a sum, behind a sign that can be left
out. -/
def signedSums : List (Rule String RuleIndex) := [
  ⟨"sign", .plain (.optional (.terminal "-") true)⟩,
  ⟨"term", .plain (.alt [.rule 2, .terminal "x"])⟩,
  ⟨"sum", .plain (.seq [.rule 0, .rule 1, .terminal "+"])⟩]

/-- The sign is nullable, so the sum calls the term first, and one cycle is found. -/
theorem signedSums_leftCycles :
    (signedSums.map Rule.name).Nodup ∧
      leftCycles signedSums (nullableRules signedSums) = [[1, 2, 1]] ∧
      IsElementaryCycle (CallsFirstByName signedSums) ["term", "sum", "term"] := by
  have hnames : (signedSums.map Rule.name).Nodup := by decide
  have hcycles : leftCycles signedSums (nullableRules signedSums) = [[1, 2, 1]] := by cbv
  have hlisted := (leftCycles_exact hnames).2.1 [1, 2, 1] (by simp [hcycles])
  exact ⟨hnames, hcycles, hlisted.2⟩

end Caret
