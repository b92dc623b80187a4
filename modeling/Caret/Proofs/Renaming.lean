import Caret.Proofs.LeftCycles
import Caret.Proofs.Nullability

/-!
# `Caret.Proofs.Renaming`: other terminals and other names of rules

Whether an expression is nullable, which rules it can call first and whether it repeats something
nullable depends neither on its terminals nor on how its rules are named. `Expr.Resolves` relates
expressions that differ in these things only, and `Expr.map` makes such an expression.

`AlikeInFront` says of two lists of rules that they agree in what comes before the first token. Then
the same rules are nullable in both (`AlikeInFront.marked_eq`), and the same calls can come first
(`AlikeInFront.callsFirst_iff`).
-/

set_option autoImplicit false

namespace Caret

/-! ### Replacing terminals and references -/

section Map

variable {τ ρ τ' ρ' : Type} (f : τ → τ') (g : ρ → ρ')

mutual

/-- Put other terminals and references in the places of those of an expression. -/
def Expr.map : Expr τ ρ → Expr τ' ρ'
  | .terminal t => .terminal (f t)
  | .rule r => .rule (g r)
  | .empty => .empty
  | .seq parts => .seq (Expr.mapList parts)
  | .alt alternatives => .alt (Expr.mapList alternatives)
  | .optional body greedy => .optional (Expr.map body) greedy
  | .star body greedy => .star (Expr.map body) greedy
  | .plus body greedy => .plus (Expr.map body) greedy

/-- Put other terminals and references in the places of those of the expressions. -/
def Expr.mapList : List (Expr τ ρ) → List (Expr τ' ρ')
  | [] => []
  | e :: es => Expr.map e :: Expr.mapList es

end

/-- The recursion over a list of expressions is the map over it. -/
theorem Expr.mapList_eq_map (es : List (Expr τ ρ)) :
    Expr.mapList f g es = es.map (Expr.map f g) := by
  induction es with
  | nil => rfl
  | cons e es ih => rw [Expr.mapList, ih, List.map_cons]

/-- Put other terminals and references in the places of those of a body. -/
def Body.map : Body τ ρ → Body τ' ρ'
  | .plain e => .plain (e.map f g)
  | .precedence primaries operators =>
      .precedence (Expr.mapList f g primaries) (Expr.mapList f g operators)

/-- The expressions of the new body are the old ones with the same replacements. -/
theorem Body.exprs_map (b : Body τ ρ) : (b.map f g).exprs = b.exprs.map (Expr.map f g) := by
  cases b with
  | plain e => rfl
  | precedence primaries operators => simp [Body.map, Body.exprs, Expr.mapList_eq_map]

mutual

/-- Replacing is a case of `Expr.Resolves`: the two relations are the graphs of the functions. What
is shown for related expressions holds for this one. -/
theorem Expr.resolves_map : ∀ e : Expr τ ρ,
    Expr.Resolves (fun t t' => f t = t') (fun r r' => g r = r') e (e.map f g)
  | .terminal _ => .terminal rfl
  | .rule _ => .rule rfl
  | .empty => .empty
  | .seq parts => (Expr.resolves_mapList parts).1
  | .alt alternatives => (Expr.resolves_mapList alternatives).2
  | .optional body _ => .optional (Expr.resolves_map body)
  | .star body _ => .star (Expr.resolves_map body)
  | .plus body _ => .plus (Expr.resolves_map body)

/-- The same for a list, once as the parts of a sequence and once as alternatives. The two are
carried along together because `Expr.Resolves` relates lists only inside of these. -/
theorem Expr.resolves_mapList : ∀ es : List (Expr τ ρ),
    Expr.Resolves (fun t t' => f t = t') (fun r r' => g r = r') (.seq es)
        (.seq (Expr.mapList f g es)) ∧
      Expr.Resolves (fun t t' => f t = t') (fun r r' => g r = r') (.alt es)
        (.alt (Expr.mapList f g es))
  | [] => ⟨.seqNil, .altNil⟩
  | e :: es =>
      ⟨.seqCons (Expr.resolves_map e) (Expr.resolves_mapList es).1,
        .altCons (Expr.resolves_map e) (Expr.resolves_mapList es).2⟩

end

/-- The same for the body of a rule. -/
theorem Body.resolves_map (b : Body τ ρ) :
    Body.Resolves (fun t t' => f t = t') (fun r r' => g r = r') b (b.map f g) := by
  cases b with
  | plain e => exact .plain (e.resolves_map f g)
  | precedence primaries operators =>
      exact .precedence (Expr.resolves_mapList f g primaries).2
        (Expr.resolves_mapList f g operators).2

end Map

/-! ### Before the first token -/

section LeftEdge

variable {τ ρ τ' ρ' : Type} {T : τ → τ' → Prop} {R : ρ → ρ' → Prop} {g : ρ → ρ'}
  {known : ρ' → Bool}

mutual

/-- Whether an expression is nullable depends on its rules only through what is known of them. -/
theorem Expr.nullable_of_resolves (hR : ∀ r r', R r r' → g r = r') :
    ∀ {e : Expr τ ρ} {e' : Expr τ' ρ'}, Expr.Resolves T R e e' →
      e'.nullable known = e.nullable fun r => known (g r)
  | .terminal _, _, .terminal _ => rfl
  | .rule r, _, .rule hr => by rw [Expr.nullable, Expr.nullable, hR _ _ hr]
  | .empty, _, .empty => rfl
  | .seq _, _, .seqNil => rfl
  | .seq (_ :: _), _, .seqCons h h' => Expr.allNullable_of_resolves hR (.seqCons h h')
  | .alt _, _, .altNil => rfl
  -- The first alternative is split off by hand: only a list that is not empty computes by
  -- `anyNullable`.
  | .alt (_ :: _), _, .altCons h h' => by
      rw [Expr.nullable, Expr.nullable, Expr.nullable_of_resolves hR h,
        Expr.anyNullable_of_resolves hR h']
  | .optional _ _, _, .optional _ => rfl
  | .star _ _, _, .star _ => rfl
  | .plus _ _, _, .plus h => by
      rw [Expr.nullable, Expr.nullable, Expr.nullable_of_resolves hR h]

/-- The same for the parts of a sequence. -/
theorem Expr.allNullable_of_resolves (hR : ∀ r r', R r r' → g r = r') :
    ∀ {es : List (Expr τ ρ)} {es' : List (Expr τ' ρ')}, Expr.Resolves T R (.seq es) (.seq es') →
      Expr.allNullable known es' = Expr.allNullable (fun r => known (g r)) es
  | [], _, .seqNil => rfl
  | _ :: _, _, .seqCons h h' => by
      rw [Expr.allNullable, Expr.allNullable, Expr.nullable_of_resolves hR h,
        Expr.allNullable_of_resolves hR h']

/-- The same for alternatives. There is no case for a choice without them, which counts as nullable:
this is about the rest of a list. -/
theorem Expr.anyNullable_of_resolves (hR : ∀ r r', R r r' → g r = r') :
    ∀ {es : List (Expr τ ρ)} {es' : List (Expr τ' ρ')}, Expr.Resolves T R (.alt es) (.alt es') →
      Expr.anyNullable known es' = Expr.anyNullable (fun r => known (g r)) es
  | [], _, .altNil => rfl
  | _ :: _, _, .altCons h h' => by
      rw [Expr.anyNullable, Expr.anyNullable, Expr.nullable_of_resolves hR h,
        Expr.anyNullable_of_resolves hR h']

end

mutual

/-- The calls that can come first are the same ones under their other names, and in the same
order. -/
theorem Expr.leftCalls_of_resolves (hR : ∀ r r', R r r' → g r = r') :
    ∀ {e : Expr τ ρ} {e' : Expr τ' ρ'}, Expr.Resolves T R e e' →
      e'.leftCalls known = (e.leftCalls fun r => known (g r)).map g
  | .terminal _, _, .terminal _ => rfl
  | .rule r, _, .rule hr => by
      rw [Expr.leftCalls, Expr.leftCalls, List.map_singleton, hR _ _ hr]
  | .empty, _, .empty => rfl
  | .seq _, _, .seqNil => rfl
  | .seq (_ :: _), _, .seqCons h h' => Expr.leftCallsOfSeq_of_resolves hR (.seqCons h h')
  | .alt _, _, .altNil => rfl
  | .alt (_ :: _), _, .altCons h h' => Expr.leftCallsOfAlt_of_resolves hR (.altCons h h')
  | .optional _ _, _, .optional h => by
      rw [Expr.leftCalls, Expr.leftCalls, Expr.leftCalls_of_resolves hR h]
  | .star _ _, _, .star h => by
      rw [Expr.leftCalls, Expr.leftCalls, Expr.leftCalls_of_resolves hR h]
  | .plus _ _, _, .plus h => by
      rw [Expr.leftCalls, Expr.leftCalls, Expr.leftCalls_of_resolves hR h]

/-- The same for a sequence, where the later parts count only if the first is nullable. -/
theorem Expr.leftCallsOfSeq_of_resolves (hR : ∀ r r', R r r' → g r = r') :
    ∀ {es : List (Expr τ ρ)} {es' : List (Expr τ' ρ')}, Expr.Resolves T R (.seq es) (.seq es') →
      Expr.leftCallsOfSeq known es' =
        (Expr.leftCallsOfSeq (fun r => known (g r)) es).map g
  | [], _, .seqNil => rfl
  | e :: es, _, .seqCons h h' => by
      rw [Expr.leftCallsOfSeq, Expr.leftCallsOfSeq, List.map_append,
        Expr.leftCalls_of_resolves hR h, Expr.nullable_of_resolves hR h,
        Expr.leftCallsOfSeq_of_resolves hR h']
      -- Whether the rest counts was just shown to be the same question on both sides.
      split
      · rfl
      · rfl

/-- The same for alternatives, which all count. -/
theorem Expr.leftCallsOfAlt_of_resolves (hR : ∀ r r', R r r' → g r = r') :
    ∀ {es : List (Expr τ ρ)} {es' : List (Expr τ' ρ')}, Expr.Resolves T R (.alt es) (.alt es') →
      Expr.leftCallsOfAlt known es' =
        (Expr.leftCallsOfAlt (fun r => known (g r)) es).map g
  | [], _, .altNil => rfl
  | e :: es, _, .altCons h h' => by
      rw [Expr.leftCallsOfAlt, Expr.leftCallsOfAlt, List.map_append,
        Expr.leftCalls_of_resolves hR h, Expr.leftCallsOfAlt_of_resolves hR h']

end

/-- Whether something nullable is repeated is the same in both, too. Here the induction is on the
relation, as no order of calls has to be kept track of. -/
theorem Expr.repeatsNullable_of_resolves (hR : ∀ r r', R r r' → g r = r') {e : Expr τ ρ}
    {e' : Expr τ' ρ'} (h : Expr.Resolves T R e e') :
    e'.repeatsNullable known = e.repeatsNullable fun r => known (g r) := by
  induction h with
  | terminal _ => rfl
  | rule _ => rfl
  | empty => rfl
  | seqNil => rfl
  | altNil => rfl
  | seqCons _ _ ih ih' => rw [repeatsNullable_seqCons, repeatsNullable_seqCons, ih, ih']
  | altCons _ _ ih ih' => rw [repeatsNullable_altCons, repeatsNullable_altCons, ih, ih']
  | optional _ ih => rw [repeatsNullable_optional, repeatsNullable_optional, ih]
  | star h ih =>
      rw [repeatsNullable_star, repeatsNullable_star, ih, Expr.nullable_of_resolves hR h]
  | plus h ih =>
      rw [repeatsNullable_plus, repeatsNullable_plus, ih, Expr.nullable_of_resolves hR h]

end LeftEdge

/-- Two bodies agree in what comes before the first token, up to the names of the rules. -/
structure Body.AlikeInFront {τ ρ τ' ρ' : Type} (g : ρ → ρ') (b : Body τ ρ) (b' : Body τ' ρ') :
    Prop where
  nullable_eq : ∀ known, b'.nullable known = b.nullable fun r => known (g r)
  leftCalls_eq : ∀ known, b'.leftCalls known = (b.leftCalls fun r => known (g r)).map g
  repeats_eq : ∀ known, b'.repeatsNullable known = b.repeatsNullable fun r => known (g r)

/-- Bodies that differ only in terminals and names of rules agree in what comes before the first
token. -/
theorem Body.alikeInFront_of_resolves {τ ρ τ' ρ' : Type} {T : τ → τ' → Prop} {R : ρ → ρ' → Prop}
    {g : ρ → ρ'} (hR : ∀ r r', R r r' → g r = r') {b : Body τ ρ} {b' : Body τ' ρ'}
    (h : Body.Resolves T R b b') : b.AlikeInFront g b' := by
  cases h with
  | plain he =>
      refine ⟨fun known => Expr.nullable_of_resolves hR he,
        fun known => Expr.leftCalls_of_resolves hR he, fun known => ?_⟩
      simp [repeatsNullable, exprs, Expr.repeatsNullable_of_resolves hR he]
  | precedence hprimaries hoperators =>
      refine ⟨fun known => Expr.anyNullable_of_resolves hR hprimaries, fun known => ?_,
        fun known => ?_⟩
      · -- Operators can only come first behind a nullable operand.
        rw [leftCalls, leftCalls, List.map_append, Expr.leftCallsOfAlt_of_resolves hR hprimaries,
          Expr.anyNullable_of_resolves hR hprimaries,
          Expr.leftCallsOfAlt_of_resolves hR hoperators]
        split
        · rfl
        · rfl
      · -- An operator also must not be nullable itself, since the rule goes around over it.
        simp only [repeatsNullable, exprs, List.any_append, ← repeatsNullable_alt,
          Expr.repeatsNullable_of_resolves hR hprimaries,
          Expr.repeatsNullable_of_resolves hR hoperators,
          Expr.anyNullable_of_resolves hR hoperators]

/-! ### Lists of rules -/

section Rules

variable {τ τ' : Type}

/-- The rules agree one by one in what comes before the first token. -/
def AlikeInFront (rules : List (Rule τ RuleIndex)) (rules' : List (Rule τ' RuleIndex)) : Prop :=
  List.Forall₂ (fun r r' => Body.AlikeInFront id r.body r'.body) rules rules'

variable {rules : List (Rule τ RuleIndex)} {rules' : List (Rule τ' RuleIndex)}

namespace AlikeInFront

/-- The rule at a position of the second list has its counterpart at the same position of the
first. -/
theorem getElem? (h : AlikeInFront rules rules') {r : RuleIndex} {rule' : Rule τ' RuleIndex}
    (hr : rules'[r]? = some rule') :
    ∃ rule, rules[r]? = some rule ∧ Body.AlikeInFront id rule.body rule'.body := by
  obtain ⟨hlt', rfl⟩ := List.getElem?_eq_some_iff.mp hr
  have hlt : r < rules.length := by
    rw [h.length_eq]
    exact hlt'
  exact ⟨rules[r], List.getElem?_eq_getElem hlt, h.get hlt hlt'⟩

/-- The same rules are nullable. -/
theorem marked_eq (h : AlikeInFront rules rules') :
    marked (nullableRules rules') = marked (nullableRules rules) := by
  -- The tables are least fixpoints, so it is enough that the rounds are the same function.
  have hround : nullableRound rules' = nullableRound rules := by
    refine OrderHom.ext _ _ (funext fun known => funext fun r => ?_)
    show (rules'[r]?).any _ = (rules[r]?).any _
    cases hr : rules'[r]? with
    | none =>
        have hnone : rules[r]? = none := by
          rw [List.getElem?_eq_none_iff, h.length_eq]
          exact List.getElem?_eq_none_iff.mp hr
        rw [hnone]
        rfl
    | some rule' =>
        obtain ⟨rule, hrule, halike⟩ := h.getElem? hr
        rw [hrule]
        exact halike.nullable_eq known
  rw [marked_nullableRules_eq_lfp, marked_nullableRules_eq_lfp, hround]

/-- The same calls can come before the first token. -/
theorem callsFirst_iff (h : AlikeInFront rules rules') (a b : RuleIndex) :
    CallsFirst rules' a b ↔ CallsFirst rules a b := by
  suffices hcalls : leftCallsOf rules' (nullableRules rules') a =
      leftCallsOf rules (nullableRules rules) a by
    rw [CallsFirst, CallsFirst, hcalls]
  rw [leftCallsOf, leftCallsOf]
  cases ha : rules'[a]? with
  | none =>
      have hnone : rules[a]? = none := by
        rw [List.getElem?_eq_none_iff, h.length_eq]
        exact List.getElem?_eq_none_iff.mp ha
      rw [hnone]
  | some rule' =>
      obtain ⟨rule, hrule, halike⟩ := h.getElem? ha
      rw [hrule]
      -- Both the bodies and the tables of nullable rules agree.
      show rule'.body.leftCalls _ = rule.body.leftCalls _
      rw [halike.leftCalls_eq, h.marked_eq, List.map_id]
      rfl

/-- The same rules repeat something nullable. -/
theorem repeats_iff (h : AlikeInFront rules rules') :
    (∀ rule ∈ rules', rule.body.repeatsNullable (marked (nullableRules rules')) = false) ↔
      ∀ rule ∈ rules, rule.body.repeatsNullable (marked (nullableRules rules)) = false := by
  rw [h.marked_eq]
  -- The tables agree, so one of them is enough and the lists can be compared rule by rule.
  generalize marked (nullableRules rules) = known
  induction h with
  | nil => simp
  | cons hfirst _ ih =>
      rw [List.forall_mem_cons, List.forall_mem_cons, ih, hfirst.repeats_eq known]
      rfl

end AlikeInFront

end Rules

end Caret
