import Mathlib
import Caret.Grammar.LeftRecursion

/-!
# `Caret.Proofs.LeftRecursion`: what the checks of a grammar establish

Marking nullable rules ends with a table that is closed: a rule whose body is nullable by the table
is marked in it (`marked_nullableRules`). A search for cycles has shown that calls before the first
token never go on for ever, whatever rule they start from, as long as they keep away from the rules
on the cycles that it has found (`settled_of_leftCycles`).

The search keeps a path of rules with the calls that are still to be looked at. Its invariant is
`PathSettled`: every call of a rule on the path is still to be looked at, leads to a rule from which
calls come to an end, or is the call to the rule above it on the path.
-/

set_option autoImplicit false

namespace Caret

variable {τ : Type}

/-! ### Nullable rules -/

/-- A pass keeps the size of the table. -/
theorem size_passOver (known : Array Bool) (changed : Bool)
    (entries : List (Rule τ RuleIndex × RuleIndex)) :
    (passOver known changed entries).1.size = known.size := by
  fun_induction passOver known changed entries with
  | case1 => rfl
  | case2 known changed rule i rest hmark ih => rw [ih, Array.size_setIfInBounds]
  | case3 known changed rule i rest hno ih => exact ih

/-- A flag that is raised stays so until the end of the pass. -/
theorem flag_passOver (known : Array Bool) (entries : List (Rule τ RuleIndex × RuleIndex)) :
    (passOver known true entries).2 = true := by
  induction entries generalizing known with
  | nil => rfl
  | cons entry rest ih =>
      rw [passOver]
      split
      · exact ih _
      · exact ih _

/-- A pass that ends without its flag has left the table as it was and found no rule to mark. -/
theorem passOver_quiet {entries : List (Rule τ RuleIndex × RuleIndex)} {known table : Array Bool}
    (h : passOver known false entries = (table, false)) :
    table = known ∧ ∀ entry ∈ entries,
      ¬ (known[entry.2]? = some false ∧ entry.1.body.nullable (marked known) = true) := by
  induction entries with
  | nil =>
      cases h
      exact ⟨rfl, fun entry hentry => nomatch hentry⟩
  | cons entry rest ih =>
      rw [passOver] at h
      split at h
      · -- A mark would have raised the flag.
        have hflag := flag_passOver (known.setIfInBounds entry.2 true) rest
        rw [h] at hflag
        cases hflag
      · rename_i hno
        obtain ⟨hsame, hquiet⟩ := ih h
        exact ⟨hsame, List.forall_mem_cons.mpr ⟨hno, hquiet⟩⟩

/-- Marking ends with a table in which a pass finds nothing to mark: that is what its last pass
found. -/
theorem markNullable_quiet (rules : List (Rule τ RuleIndex)) (known : Array Bool) :
    (∀ entry ∈ rules.zipIdx, ¬ ((markNullable rules known)[entry.2]? = some false ∧
      entry.1.body.nullable (marked (markNullable rules known)) = true)) ∧
    (markNullable rules known).size = known.size := by
  fun_induction markNullable rules known with
  | case1 known table hpass ih =>
      have hsize := size_passOver known false rules.zipIdx
      rw [← nullablePass, hpass] at hsize
      exact ⟨ih.1, ih.2.trans hsize⟩
  | case2 known table hpass =>
      obtain ⟨rfl, hquiet⟩ := passOver_quiet hpass
      exact ⟨hquiet, rfl⟩

/-- The table of nullable rules is closed: it marks every rule whose body it makes nullable. -/
theorem marked_nullableRules {rules : List (Rule τ RuleIndex)} {r : RuleIndex}
    {rule : Rule τ RuleIndex} (hr : rules[r]? = some rule)
    (hnullable : rule.body.nullable (marked (nullableRules rules)) = true) :
    marked (nullableRules rules) r = true := by
  obtain ⟨hquiet, hsize⟩ := markNullable_quiet rules (Array.replicate rules.length false)
  have hmem : (rule, r) ∈ rules.zipIdx := by
    rw [List.mem_zipIdx_iff_getElem?]
    exact hr
  have hlt : r < (nullableRules rules).size := by
    rw [nullableRules, hsize, Array.size_replicate]
    exact (List.getElem?_eq_some_iff.mp hr).1
  -- The rule is in the table, and the last pass has found it marked or not nullable.
  have hnot : (nullableRules rules)[r]? ≠ some false := fun hfalse =>
    hquiet _ hmem ⟨hfalse, hnullable⟩
  rw [Array.getElem?_eq_getElem hlt, ne_eq, Option.some.injEq, Bool.not_eq_false] at hnot
  rw [marked, Array.getElem?_eq_getElem hlt, hnot]
  rfl

/-! ### Calls before the first token -/

section Search

variable (calls part : RuleIndex → List RuleIndex)

/-- From the rule `r` calls come to an end: there is no unending sequence of calls. -/
def Settled (r : RuleIndex) : Prop := Acc (fun callee caller => callee ∈ calls caller) r

/-- A rule is settled if the rules that it calls are. -/
theorem settled_of_calls {r : RuleIndex} (h : ∀ c ∈ calls r, Settled calls c) :
    Settled calls r := Acc.intro r h

/-- A rule without calls is settled. -/
theorem settled_of_calls_eq_nil {r : RuleIndex} (h : calls r = []) : Settled calls r := by
  refine settled_of_calls calls fun c hc => ?_
  rw [h] at hc
  cases hc

/-- A rule that need not be searched from was seen before, or it is no rule at all. -/
theorem settled_of_not_new {seen : Array Bool} {r : RuleIndex}
    (hout : ∀ c, seen.size ≤ c → calls c = []) (hold : ¬ seen[r]? = some false)
    (hseen : seen[r]? = some true → Settled calls r) : Settled calls r := by
  cases hget : seen[r]? with
  | none => exact settled_of_calls_eq_nil calls (hout r (Array.getElem?_eq_none_iff.mp hget))
  | some b =>
      cases b with
      | false => exact absurd hget hold
      | true => exact hseen hget

/-- The rules that are seen once one more is marked. -/
theorem seen_set_iff {seen : Array Bool} {root : RuleIndex} (hnew : seen[root]? = some false)
    (r : RuleIndex) :
    (seen.setIfInBounds root true)[r]? = some true ↔ r = root ∨ seen[r]? = some true := by
  have hlt : root < seen.size := (Array.getElem?_eq_some_iff.mp hnew).1
  rw [Array.getElem?_setIfInBounds]
  by_cases hr : root = r
  · subst hr
    simp [hlt]
  · simp [hr, Ne.symm hr]

/-- Every call of a rule on the path is still to be looked at, or settled, or leads to the rule
above it on the path. -/
def PathSettled : Option RuleIndex → List (RuleIndex × List RuleIndex) → Prop
  | _, [] => True
  | above, (r, rest) :: below =>
      (∀ c ∈ calls r, c ∈ rest ∨ Settled calls c ∨ above = some c) ∧ PathSettled (some r) below

/-- A path whose top entry called `r` is settled without that entry, if `r` is settled. -/
theorem PathSettled.of_settled {r : RuleIndex} {path : List (RuleIndex × List RuleIndex)}
    (h : PathSettled calls (some r) path) (hr : Settled calls r) :
    PathSettled calls none path := by
  cases path with
  | nil => trivial
  | cons entry below =>
      refine ⟨fun c hc => ?_, h.2⟩
      rcases h.1 c hc with hrest | hsettled | hsame
      · exact Or.inl hrest
      · exact Or.inr (Or.inl hsettled)
      · exact Or.inr (Or.inl (Option.some.inj hsame ▸ hr))

/-- A search settles every rule it has come to, as far as only calls in `part` are followed, if no
rule on a cycle that it finds is called in `part`. It starts from a path that is settled, where
every rule that was seen before is on the path or settled. -/
theorem settled_of_cyclesFrom (seen : Array Bool) (path : List (RuleIndex × List RuleIndex))
    (hout : ∀ c, seen.size ≤ c → part c = []) (hpart : ∀ r, ∀ c ∈ part r, c ∈ calls r)
    (hseen : ∀ r : RuleIndex, seen[r]? = some true → r ∈ path.map Prod.fst ∨ Settled part r)
    (hpath : PathSettled part none path)
    (hnone : ∀ cycle ∈ (cyclesFrom calls seen path).2, ∀ c ∈ cycle, ∀ r, c ∉ part r) :
    (cyclesFrom calls seen path).1.size = seen.size ∧
      (∀ r : RuleIndex, seen[r]? = some true → (cyclesFrom calls seen path).1[r]? = some true) ∧
      ∀ r : RuleIndex, (cyclesFrom calls seen path).1[r]? = some true → Settled part r := by
  -- Induction on the search: up when a rule is done, into a new callee, round a cycle, or past a
  -- callee that was seen.
  fun_induction cyclesFrom calls seen path with
  | case1 seen => exact ⟨rfl, fun r hr => hr, fun r hr => by simpa using hseen r hr⟩
  | case2 seen rule above ih =>
      -- All calls of the top rule were looked at, and it is settled.
      have hrule : Settled part rule := settled_of_calls part fun c hc => by
        simpa using hpath.1 c hc
      refine ih hout (fun r hr => ?_) (PathSettled.of_settled part hpath.2 hrule) hnone
      rcases hseen r hr with hmem | hsettled
      · rcases List.mem_cons.mp hmem with rfl | hmem
        · exact Or.inr hrule
        · exact Or.inl hmem
      · exact Or.inr hsettled
  | case3 seen rule callee rest above hnew ih =>
      -- The callee is put on top of the path, and from then on it is the rule above its caller.
      have hcaller : ∀ c ∈ part rule, c ∈ rest ∨ Settled part c ∨ some callee = some c := by
        intro c hc
        rcases hpath.1 c hc with hrest | hsettled | hsame
        · rcases List.mem_cons.mp hrest with rfl | hrest
          · exact Or.inr (Or.inr rfl)
          · exact Or.inl hrest
        · exact Or.inr (Or.inl hsettled)
        · cases hsame
      obtain ⟨hsize, hmono, hall⟩ := ih (by simpa using hout) (fun r hr => by
          rcases (seen_set_iff hnew r).mp hr with rfl | hr
          · exact Or.inl (by simp)
          · rcases hseen r hr with hmem | hsettled
            · exact Or.inl (List.mem_cons_of_mem _ hmem)
            · exact Or.inr hsettled)
        ⟨fun c hc => Or.inl (hpart _ c hc), hcaller, hpath.2⟩ hnone
      exact ⟨by simpa using hsize, fun r hr => hmono r ((seen_set_iff hnew r).mpr (Or.inr hr)),
        hall⟩
  | case4 seen rule callee rest above hold found names hcycle ih =>
      have hnames : callee ∈ rule :: above.map Prod.fst := by simpa [names] using hcycle
      simp only [if_pos hnames] at hnone ⊢
      -- The callee is on the cycle that is listed, so the call that closes it is not in `part`.
      have hcallee : callee ∉ part rule :=
        hnone _ List.mem_cons_self callee (by simp [closeCycle]) rule
      refine ih hout hseen ⟨fun c hc => ?_, hpath.2⟩
        (fun cycle hcycle => hnone cycle (List.mem_cons_of_mem _ hcycle))
      rcases hpath.1 c hc with hrest | hsettled | hsame
      · rcases List.mem_cons.mp hrest with rfl | hrest
        · exact absurd hc hcallee
        · exact Or.inl hrest
      · exact Or.inr (Or.inl hsettled)
      · cases hsame
  | case5 seen rule callee rest above hold found names hcycle ih =>
      have hnames : callee ∉ rule :: above.map Prod.fst := by simpa [names] using hcycle
      simp only [if_neg hnames] at hnone ⊢
      -- The callee is not on the path, so if it was seen before it is settled.
      have hcallee : Settled part callee :=
        settled_of_not_new part hout hold fun hget => (hseen callee hget).resolve_left hnames
      refine ih hout hseen ⟨fun c hc => ?_, hpath.2⟩ hnone
      rcases hpath.1 c hc with hrest | hsettled | hsame
      · rcases List.mem_cons.mp hrest with rfl | hrest
        · exact Or.inr (Or.inl hcallee)
        · exact Or.inl hrest
      · exact Or.inr (Or.inl hsettled)
      · cases hsame

/-- Searches settle every rule that they start from, in the same way. -/
theorem settled_of_cyclesFromAll (roots : List RuleIndex) (seen : Array Bool)
    (hout : ∀ c, seen.size ≤ c → part c = []) (hpart : ∀ r, ∀ c ∈ part r, c ∈ calls r)
    (hseen : ∀ r : RuleIndex, seen[r]? = some true → Settled part r)
    (hnone : ∀ cycle ∈ cyclesFromAll calls roots seen, ∀ c ∈ cycle, ∀ r, c ∉ part r) :
    ∀ r ∈ roots, Settled part r := by
  induction roots generalizing seen with
  | nil => simp
  | cons root roots ih =>
      rw [cyclesFromAll] at hnone
      split at hnone
      · rename_i hnew
        simp only [List.mem_append] at hnone
        have hlt : root < seen.size := (Array.getElem?_eq_some_iff.mp hnew).1
        obtain ⟨hsize, hmono, hall⟩ := settled_of_cyclesFrom calls part
          (seen.setIfInBounds root true) [(root, calls root)] (by simpa using hout) hpart
          (fun r hr => by
            rcases (seen_set_iff hnew r).mp hr with rfl | hr
            · exact Or.inl (by simp)
            · exact Or.inr (hseen r hr))
          ⟨fun c hc => Or.inl (hpart _ c hc), trivial⟩ (fun cycle hc => hnone cycle (Or.inl hc))
        intro r hr
        rcases List.mem_cons.mp hr with rfl | hr
        · exact hall _ (hmono _ ((seen_set_iff hnew _).mpr (Or.inl rfl)))
        · exact ih _ (by simpa [hsize] using hout) hall
            (fun cycle hc => hnone cycle (Or.inr hc)) r hr
      · rename_i hold
        intro r hr
        rcases List.mem_cons.mp hr with rfl | hr
        · exact settled_of_not_new part hout hold (hseen r)
        · exact ih seen hout hseen hnone r hr

end Search

/-- If no rule on a cycle that is found is called in `part`, calls in `part` before the first token
come to an end from every rule. -/
theorem settled_of_leftCycles {rules : List (Rule τ RuleIndex)} {known : Array Bool}
    {part : RuleIndex → List RuleIndex}
    (hpart : ∀ r, ∀ c ∈ part r, c ∈ leftCallsOf rules known r)
    (hnone : ∀ cycle ∈ leftCycles rules known, ∀ c ∈ cycle, ∀ r, c ∉ part r) (r : RuleIndex) :
    Settled part r := by
  have hout : ∀ c, rules.length ≤ c → part c = [] := by
    intro c hc
    refine List.eq_nil_iff_forall_not_mem.mpr fun b hb => ?_
    have hcall := hpart c b hb
    rw [leftCallsOf, List.getElem?_eq_none hc] at hcall
    cases hcall
  -- The search starts from every rule once. Beyond the last rule there are no calls.
  rcases Nat.lt_or_ge r rules.length with hlt | hge
  · refine settled_of_cyclesFromAll _ part (List.range rules.length)
      (Array.replicate rules.length false) (by simpa using hout) hpart (fun c hc => ?_) hnone r
      (List.mem_range.mpr hlt)
    rw [Array.getElem?_replicate] at hc
    split at hc <;> simp at hc
  · exact settled_of_calls_eq_nil _ (hout r hge)

end Caret
