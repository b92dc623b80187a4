import Mathlib
import Caret.Proofs.FirstTokens
import Caret.Proofs.Suggestions

/-!
# `Caret.Proofs.Nullability`: two ways to tell whether a rule can match nothing

The checks of a grammar mark nullable rules until no other one is found. `nullableRound` is one
round of it: a rule is nullable if its body is, as far as is known. The table that marking ends with
is the least fixpoint of the rounds (`marked_nullableRules_eq_lfp`).

A traversal of a rule in front of nothing but the caret finds out the same by trying. It reaches the
end exactly if the rule derives the empty text, and `nullability_agrees` compares the two. Every
rule that reaches the end is marked. A choice without alternatives counts as nullable in the checks
but cannot be passed, and apart from it a rule that is marked reaches the end.
-/

set_option autoImplicit false

namespace Caret

/-! ### The table is a least fixpoint -/

section Rounds

variable {τ ρ : Type} {known known' : ρ → Bool}

mutual

/-- The more rules are known to be nullable, the more expressions are. -/
theorem Expr.nullable_mono (h : ∀ r, known r = true → known' r = true) :
    ∀ {e : Expr τ ρ}, e.nullable known = true → e.nullable known' = true
  | .terminal _, he => he
  | .rule r, he => h r he
  | .empty, _ => rfl
  | .seq _, he => Expr.allNullable_mono h he
  | .alt [], _ => rfl
  | .alt (_ :: _), he => by
      rw [Expr.nullable, Bool.or_eq_true] at he ⊢
      exact he.imp (Expr.nullable_mono h) (Expr.anyNullable_mono h)
  | .optional _ _, _ => rfl
  | .star _ _, _ => rfl
  | .plus e _, he => Expr.nullable_mono (e := e) h he

/-- All parts of a sequence stay nullable. -/
theorem Expr.allNullable_mono (h : ∀ r, known r = true → known' r = true) :
    ∀ {es : List (Expr τ ρ)}, allNullable known es = true → allNullable known' es = true
  | [], _ => rfl
  | _ :: _, hes => by
      rw [Expr.allNullable, Bool.and_eq_true] at hes ⊢
      exact hes.imp (Expr.nullable_mono h) (Expr.allNullable_mono h)

/-- An alternative that is nullable stays so. -/
theorem Expr.anyNullable_mono (h : ∀ r, known r = true → known' r = true) :
    ∀ {es : List (Expr τ ρ)}, anyNullable known es = true → anyNullable known' es = true
  | [], hes => hes
  | _ :: _, hes => by
      rw [Expr.anyNullable, Bool.or_eq_true] at hes ⊢
      exact hes.imp (Expr.nullable_mono h) (Expr.anyNullable_mono h)

end

/-- The same for the body of a rule. -/
theorem Body.nullable_mono (h : ∀ r, known r = true → known' r = true) {b : Body τ ρ}
    (hb : b.nullable known = true) : b.nullable known' = true := by
  cases b with
  | plain e => exact Expr.nullable_mono h hb
  | precedence primaries operators => exact Expr.anyNullable_mono h hb

end Rounds

section Table

variable {τ : Type} (rules : List (Rule τ RuleIndex))

/-- The rules whose bodies are nullable if the known rules are. -/
def nullableRound : (RuleIndex → Bool) →o (RuleIndex → Bool) where
  toFun known r := (rules[r]?).any fun rule => rule.body.nullable known
  monotone' known known' hle r := by
    rw [Bool.le_iff_imp, Option.any_eq_true, Option.any_eq_true]
    rintro ⟨rule, hrule, hnullable⟩
    exact ⟨rule, hrule, Body.nullable_mono (fun c => Bool.le_iff_imp.mp (hle c)) hnullable⟩

/-- A rule that is marked next to a table below the least fixpoint is nullable there too, so the
table stays below it. -/
theorem marked_set_le {known : Array Bool} {rule : Rule τ RuleIndex} {i : RuleIndex}
    (hrule : rules[i]? = some rule) (hnullable : rule.body.nullable (marked known) = true)
    (hknown : marked known ≤ (nullableRound rules).lfp) :
    marked (known.setIfInBounds i true) ≤ (nullableRound rules).lfp := by
  refine fun r => Bool.le_iff_imp.mpr fun hr => ?_
  -- The rule is the one that was marked just now, or it was marked before.
  by_cases hri : i = r
  · subst hri
    have hround : nullableRound rules (marked known) i = true :=
      (Option.any_eq_true _ _).mpr ⟨rule, hrule, hnullable⟩
    -- One round from below the fixpoint stays below it.
    have hle := (nullableRound rules).monotone hknown i
    rw [OrderHom.map_lfp] at hle
    exact Bool.le_iff_imp.mp hle hround
  · refine Bool.le_iff_imp.mp (hknown r) ?_
    rwa [marked, Array.getElem?_setIfInBounds, if_neg hri] at hr

/-- A pass stays below the least fixpoint, because each of its marks does. -/
theorem marked_passOver_le {entries : List (Rule τ RuleIndex × RuleIndex)}
    (hentries : ∀ entry ∈ entries, rules[entry.2]? = some entry.1) {known : Array Bool}
    {changed : Bool} (hknown : marked known ≤ (nullableRound rules).lfp) :
    marked (passOver known changed entries).1 ≤ (nullableRound rules).lfp := by
  fun_induction passOver known changed entries with
  | case1 => exact hknown
  | case2 known changed rule i rest hmark ih =>
      obtain ⟨hrule, hrest⟩ := List.forall_mem_cons.mp hentries
      exact ih hrest (marked_set_le rules hrule hmark.2 hknown)
  | case3 known changed rule i rest hno ih => exact ih (List.forall_mem_cons.mp hentries).2 hknown

/-- The same for a pass over all rules, whether or not it marks one. -/
theorem marked_nullablePass_le {known table : Array Bool} {changed : Bool}
    (hknown : marked known ≤ (nullableRound rules).lfp)
    (hpass : nullablePass rules known = (table, changed)) :
    marked table ≤ (nullableRound rules).lfp := by
  have hle : marked (nullablePass rules known).1 ≤ (nullableRound rules).lfp :=
    marked_passOver_le rules (fun _ => List.mem_zipIdx_iff_getElem?.mp) hknown
  rwa [hpass] at hle

/-- Marking stays below the least fixpoint, pass by pass. -/
theorem marked_markNullable_le (known : Array Bool)
    (hknown : marked known ≤ (nullableRound rules).lfp) :
    marked (markNullable rules known) ≤ (nullableRound rules).lfp := by
  fun_induction markNullable rules known with
  | case1 known table hpass ih => exact ih (marked_nullablePass_le rules hknown hpass)
  | case2 known table hpass => exact marked_nullablePass_le rules hknown hpass

/-- The table of nullable rules is the least fixpoint of the rounds. -/
theorem marked_nullableRules_eq_lfp :
    marked (nullableRules rules) = (nullableRound rules).lfp := by
  refine le_antisymm (marked_markNullable_le rules _ fun r => ?_) ((nullableRound rules).lfp_le ?_)
  · -- At first nothing is marked.
    refine Bool.le_iff_imp.mpr fun hr => ?_
    rw [marked, Array.getElem?_replicate] at hr
    split at hr <;> cases hr
  · -- Marking has stopped, so the bodies that are nullable belong to marked rules.
    intro r
    refine Bool.le_iff_imp.mpr fun hr => ?_
    obtain ⟨rule, hrule, hnullable⟩ := (Option.any_eq_true _ _).mp hr
    exact marked_nullableRules hrule hnullable

variable {rules}

/-- What is closed under the rounds holds of every rule that is marked. -/
theorem of_marked {P : RuleIndex → Prop} (hround : ∀ known, (∀ r, known r = true → P r) →
      ∀ (r : RuleIndex) (rule : Rule τ RuleIndex), rules[r]? = some rule →
        rule.body.nullable known = true → P r)
    {r : RuleIndex} (hr : marked (nullableRules rules) r = true) : P r := by
  classical
  -- The least fixpoint is below every table that is closed under the rounds. This is one.
  have hclosed : nullableRound rules (fun c => decide (P c)) ≤ fun c => decide (P c) := by
    intro c
    refine Bool.le_iff_imp.mpr fun hc => decide_eq_true ?_
    obtain ⟨rule, hrule, hnullable⟩ := (Option.any_eq_true _ _).mp hc
    exact hround _ (fun _ => of_decide_eq_true) c rule hrule hnullable
  have hle := (nullableRound rules).lfp_le hclosed r
  rw [← marked_nullableRules_eq_lfp] at hle
  exact of_decide_eq_true (Bool.le_iff_imp.mp hle hr)

end Table

/-! ### What is marked derives the empty text -/

section Derivations

variable {rules : List (Rule Label RuleIndex)} {u : Universe} {known : RuleIndex → Bool}

mutual

/-- A nullable expression without empty choices derives the empty text, if the rules that are known
to be nullable do. -/
theorem Expr.yields_nil
    (h : ∀ r, known r = true → Yields (.ofRules rules u) (.rule r 0) []) :
    ∀ {e : Expr Label RuleIndex}, .alt [] ∉ e.nodes → e.nullable known = true →
      Yields (.ofRules rules u) (.expr e) []
  | .terminal _, _, he => by cases he
  | .rule r, _, he => .ref rfl (h r he)
  | .empty, _, _ => .empty
  | .seq _, hnodes, he =>
      Expr.yields_nil_seq h (fun hmem => hnodes (List.mem_cons_of_mem _ hmem)) he
  | .alt [], hnodes, _ => absurd List.mem_cons_self hnodes
  | .alt (_ :: _), hnodes, he =>
      Expr.yields_nil_alt h (fun hmem => hnodes (List.mem_cons_of_mem _ hmem)) he
  | .optional _ _, _, _ => .optionalSkip
  | .star _ _, _, _ => .starNil
  | .plus e _, hnodes, he =>
      .plus (u := []) (Expr.yields_nil (e := e) h
        (fun hmem => hnodes (List.mem_cons_of_mem _ hmem)) he) .starNil

/-- A sequence of nullable parts derives the empty text, split at every part. -/
theorem Expr.yields_nil_seq
    (h : ∀ r, known r = true → Yields (.ofRules rules u) (.rule r 0) []) :
    ∀ {es : List (Expr Label RuleIndex)}, .alt [] ∉ nodesOfList es →
      allNullable known es = true → Yields (.ofRules rules u) (.expr (.seq es)) []
  | [], _, _ => .seqNil
  | e :: es, hnodes, hes => by
      rw [Expr.allNullable, Bool.and_eq_true] at hes
      rw [Expr.nodesOfList, List.mem_append, not_or] at hnodes
      exact .seqCons (u := []) (Expr.yields_nil h hnodes.1 hes.1)
        (Expr.yields_nil_seq h hnodes.2 hes.2)

/-- A choice derives the empty text by an alternative that does. -/
theorem Expr.yields_nil_alt
    (h : ∀ r, known r = true → Yields (.ofRules rules u) (.rule r 0) []) :
    ∀ {es : List (Expr Label RuleIndex)}, .alt [] ∉ nodesOfList es →
      anyNullable known es = true → Yields (.ofRules rules u) (.expr (.alt es)) []
  | [], _, hes => by cases hes
  | e :: es, hnodes, hes => by
      rw [Expr.anyNullable, Bool.or_eq_true] at hes
      rw [Expr.nodesOfList, List.mem_append, not_or] at hnodes
      exact Yields.altCons_iff.mpr (hes.imp (Expr.yields_nil h hnodes.1)
        (Expr.yields_nil_alt h hnodes.2))

end

/-- No part of a list of expressions is an empty choice, if none is in each of them. -/
theorem Expr.not_mem_nodesOfList {τ ρ : Type} {x : Expr τ ρ} {es : List (Expr τ ρ)}
    (h : ∀ e ∈ es, x ∉ e.nodes) : x ∉ Expr.nodesOfList es := by
  induction es with
  | nil => simp [nodesOfList]
  | cons e es ih =>
      rw [nodesOfList, List.mem_append, not_or]
      exact ⟨h e List.mem_cons_self, ih fun e' he' => h e' (List.mem_cons_of_mem _ he')⟩

/-- Without empty choices, rules that are marked derive the empty text: deriving it is closed under
the rounds. -/
theorem yields_nil_of_knownNullable
    (hchoices : ∀ rule ∈ rules, ∀ e ∈ rule.body.exprs, .alt [] ∉ e.nodes) {r : RuleIndex}
    (hr : knownNullable rules r = true) : Yields (.ofRules rules u) (.rule r 0) [] := by
  refine of_marked (P := fun c => Yields (.ofRules rules u) (.rule c 0) [])
    (fun known hderives c rule hrule hnullable => ?_) hr
  have hnodes := hchoices rule (List.mem_of_getElem? hrule)
  cases hbody : rule.body with
  | plain e =>
      rw [hbody] at hnullable hnodes
      have hplain : (Definitions.ofRules rules u).body c = some (.plain e) := by
        simp [Definitions.ofRules, hrule, hbody]
      exact .rule (.plain hplain
        (Expr.yields_nil hderives (hnodes e (by simp [Body.exprs])) hnullable))
  | precedence primaries operators =>
      rw [hbody] at hnullable hnodes
      have hprecedence : (Definitions.ofRules rules u).body c =
          some (.precedence primaries operators) := by
        simp [Definitions.ofRules, hrule, hbody]
      -- Operators do not matter: a primary alone will do.
      have hprimaries := Expr.not_mem_nodesOfList fun e he =>
        hnodes e (List.mem_append_left operators he)
      exact .rule (.precedence (u := []) hprecedence
        (Expr.yields_nil_alt hderives hprimaries hnullable) .loopEnd)

end Derivations

/-! ### Traversals -/

/-- Each expression of the second body stands in the place of one of the first. -/
theorem Body.Resolves.exists_expr {τ ρ τ' ρ' : Type} {T : τ → τ' → Prop} {R : ρ → ρ' → Prop}
    {b : Body τ ρ} {b' : Body τ' ρ'} (h : Body.Resolves T R b b') :
    ∀ e' ∈ b'.exprs, ∃ e ∈ b.exprs, Expr.Resolves T R e e' := by
  intro e' he'
  cases h with
  | plain he => exact ⟨_, List.mem_singleton_self _, List.mem_singleton.mp he' ▸ he⟩
  | precedence hprimaries hoperators =>
      rcases List.mem_append.mp he' with he' | he'
      · obtain ⟨k, hk⟩ := List.mem_iff_getElem?.mp he'
        obtain ⟨e, he, hresolves⟩ := hprimaries.getElem?.2 k e' hk
        exact ⟨e, List.mem_append_left _ (List.mem_of_getElem? he), hresolves⟩
      · obtain ⟨k, hk⟩ := List.mem_iff_getElem?.mp he'
        obtain ⟨e, he, hresolves⟩ := hoperators.getElem?.2 k e' hk
        exact ⟨e, List.mem_append_right _ (List.mem_of_getElem? he), hresolves⟩

/-- Every choice that is written in the grammar has an alternative. -/
def Source.NoEmptyChoice (s : Source) : Prop :=
  ∀ rule ∈ s.rules, ∀ e ∈ rule.body.exprs, .alt [] ∉ e.nodes

/-- Resolving names leaves no choice without alternatives. -/
theorem Source.NoEmptyChoice.rules {s : Source} {g : Grammar} (hs : s.NoEmptyChoice)
    (h : s.build = .ok g) : ∀ rule ∈ g.rules, ∀ e ∈ rule.body.exprs, .alt [] ∉ e.nodes := by
  intro rule hrule e' he' hmem
  obtain ⟨r, hr⟩ := List.mem_iff_getElem?.mp hrule
  obtain ⟨rule', hrule', hresolves⟩ := Source.body_resolves (Source.build_spec h).1 hr
  obtain ⟨e, he, hresolves⟩ := hresolves.exists_expr e' he'
  obtain ⟨x, hx, hx'⟩ := hresolves.exists_node _ hmem
  cases hx'
  exact hs rule' (List.mem_of_getElem? hrule') e he hx

/-- The table of nullable rules is the least fixpoint of the rounds, whatever the rules are. In an
accepted grammar every rule can be traversed in front of nothing but the caret, which is what its
entry in the table of first tokens records. If that reaches the end, the rule is marked as nullable,
and the other way round if every choice has an alternative. -/
theorem nullability_agrees :
    (∀ (τ : Type) (rules : List (Rule τ RuleIndex)),
      marked (nullableRules rules) = (nullableRound rules).lfp) ∧
    ∀ (s : Source) (g : Grammar), s.build = .ok g → s.numbering.size < 2 ^ 31 - 2 →
      ∃ f, Ends (fun limit => FirstTokens.ofNetwork g.recognizer.network limit) f ∧
        ∀ q < s.rules.length, ∃ T,
          Ends (fun limit => Traversal.atStart g.recognizer.network limit q) T ∧
          f.isNullable q = T.reachedEnd ∧
          (T.reachedEnd = true → marked (nullableRules g.rules) q = true) ∧
          (s.NoEmptyChoice → T.reachedEnd = marked (nullableRules g.rules) q) := by
  refine ⟨fun τ rules => marked_nullableRules_eq_lfp rules, fun s g h hsize => ?_⟩
  have hwf := Source.wellFormed_of_build h hsize
  have hn := Source.realizes_of_build h hsize
  obtain ⟨f, hf, hdescribes⟩ := FirstTokens.ofNetwork_ends hwf hn
  refine ⟨f, hf, fun q hq => ?_⟩
  have hq' : q < g.rules.length := (Source.length_rules h).symm ▸ hq
  -- A search through the rule stands for the traversal, and its outcomes for derivations.
  obtain ⟨os, hos⟩ := hwf.exists_enumerates_body (fair_noAnswers _) hq' []
  have hrule : Enumerates (.ofRules g.rules s.tokenUniverse) noAnswers (.rule q 0) [] _ :=
    .entered rfl hos
  -- The traversal reaches the end if the rule derives the empty text.
  have hyields := hrule.reachesEnd_iff
  refine ⟨_, Traversal.atStart_of_enumerates hn hq' hos, ?_, ?_, fun hs => ?_⟩
  · rw [Bool.eq_iff_iff, hdescribes.isNullable_iff hwf, and_iff_right hq']
    exact hyields.symm
  · intro hend
    exact hwf.nullable_of_yields hq' (hyields.mp hend)
  · rw [Bool.eq_iff_iff]
    exact ⟨fun hend => hwf.nullable_of_yields hq' (hyields.mp hend),
      fun hmarked => hyields.mpr (yields_nil_of_knownNullable (hs.rules h) hmarked)⟩

/-- Two signs, each of which can be left out. -/
def signGrammar : Source where
  rules := [
    ⟨"signs", .plain (.seq [.rule "sign", .rule "sign"])⟩,
    ⟨"sign", .plain (.optional (.terminal (.one (.literal "-"))) true)⟩]
  lexerRules := []

/-- The rule for two signs is marked as nullable, so its traversal reaches the end. -/
theorem signs_reach_end : ∃ g, signGrammar.build = .ok g ∧
    signGrammar.numbering.size < 2 ^ 31 - 2 ∧ signGrammar.NoEmptyChoice ∧
    marked (nullableRules g.rules) 0 = true ∧
    ∃ T, Ends (fun limit => Traversal.atStart g.recognizer.network limit 0) T ∧
      T.reachedEnd = true := by
  have hsize : signGrammar.numbering.size < 2 ^ 31 - 2 := by decide
  have hchoices : signGrammar.NoEmptyChoice := by
    simp [Source.NoEmptyChoice, signGrammar, Body.exprs, Expr.nodes, Expr.nodesOfList]
  have hmarked : (signGrammar.build.toOption.map fun g => marked (nullableRules g.rules) 0) =
      some true := by cbv
  cases hbuild : signGrammar.build with
  | error e =>
      rw [hbuild] at hmarked
      cases hmarked
  | ok g =>
      rw [hbuild] at hmarked
      have hmarked : marked (nullableRules g.rules) 0 = true := Option.some.inj hmarked
      obtain ⟨f, -, hall⟩ := nullability_agrees.2 signGrammar g hbuild hsize
      obtain ⟨T, hends, -, -, hsame⟩ := hall 0 (by decide)
      exact ⟨g, rfl, hsize, hchoices, hmarked, T, hends, (hsame hchoices).trans hmarked⟩

end Caret
