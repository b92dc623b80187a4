import Caret.Proofs.Renaming
import Caret.Proofs.TokenNumbers

/-!
# `Caret.Proofs.Validity`: which grammars are accepted

`Source.Valid` says what a grammar has to be like: names are defined, and defined once, literals are
not empty, nothing is repeated that can match the empty text, and no rule calls itself before it
reads a token. The last two speak of the rules with positions in the places of names
(`Source.linked`).

`Source.valid_iff_exists_build` states that exactly the valid grammars are accepted. In a valid
grammar every symbol has a token type (`Source.Valid.exists_tokenTypeOf`) and every reference a
position, so that all names can be resolved, and the resolved rules agree with the linked ones in
what comes before the first token (`Source.alikeInFront_linked`).
-/

set_option autoImplicit false

namespace Caret

open Relation

/-! ### Resolving succeeds -/

section

variable {ε τ ρ τ' ρ' : Type} {terminalOf : τ → Except ε τ'} {ruleOf : ρ → Except ε ρ'}

mutual

/-- If all terminals and references have replacements, the expression has one. -/
theorem Expr.exists_resolve : ∀ {e : Expr τ ρ},
    e.Fits (fun t => ∃ t', terminalOf t = .ok t') (fun r => ∃ r', ruleOf r = .ok r') →
      ∃ e', e.resolve terminalOf ruleOf = .ok e'
  | .terminal _, ⟨t', ht⟩ => ⟨.terminal t', by rw [resolve, ht]; rfl⟩
  | .rule _, ⟨r', hr⟩ => ⟨.rule r', by rw [resolve, hr]; rfl⟩
  | .empty, _ => ⟨.empty, rfl⟩
  | .seq _, h => by
      obtain ⟨parts, hparts⟩ := Expr.exists_resolveList h
      exact ⟨.seq parts, by rw [resolve, hparts]; rfl⟩
  | .alt _, h => by
      obtain ⟨alternatives, halternatives⟩ := Expr.exists_resolveList h
      exact ⟨.alt alternatives, by rw [resolve, halternatives]; rfl⟩
  | .optional e greedy, h => by
      obtain ⟨body, hbody⟩ := Expr.exists_resolve (e := e) h
      exact ⟨.optional body greedy, by rw [resolve, hbody]; rfl⟩
  | .star e greedy, h => by
      obtain ⟨body, hbody⟩ := Expr.exists_resolve (e := e) h
      exact ⟨.star body greedy, by rw [resolve, hbody]; rfl⟩
  | .plus e greedy, h => by
      obtain ⟨body, hbody⟩ := Expr.exists_resolve (e := e) h
      exact ⟨.plus body greedy, by rw [resolve, hbody]; rfl⟩

/-- The same for the expressions of a list. -/
theorem Expr.exists_resolveList : ∀ {es : List (Expr τ ρ)},
    Expr.AllFit (fun t => ∃ t', terminalOf t = .ok t') (fun r => ∃ r', ruleOf r = .ok r') es →
      ∃ es', Expr.resolveList terminalOf ruleOf es = .ok es'
  | [], _ => ⟨[], rfl⟩
  | _ :: _, h => by
      obtain ⟨first, hfirst⟩ := Expr.exists_resolve h.1
      obtain ⟨rest, hrest⟩ := Expr.exists_resolveList h.2
      exact ⟨first :: rest, by rw [resolveList, hfirst, hrest]; rfl⟩

end

/-- The same for bodies. -/
theorem Body.exists_resolve {b : Body τ ρ}
    (h : b.Fits (fun t => ∃ t', terminalOf t = .ok t') fun r => ∃ r', ruleOf r = .ok r') :
    ∃ b', b.resolve terminalOf ruleOf = .ok b' := by
  cases b with
  | plain e =>
      obtain ⟨e', he⟩ := Expr.exists_resolve (e := e) h
      exact ⟨.plain e', by rw [resolve, he]; rfl⟩
  | precedence primaries operators =>
      obtain ⟨primaries', hprimaries⟩ := Expr.exists_resolveList h.1
      obtain ⟨operators', hoperators⟩ := Expr.exists_resolveList h.2
      exact ⟨.precedence primaries' operators', by rw [resolve, hprimaries, hoperators]; rfl⟩

end

/-- What holds throughout all expressions of a body holds throughout the body. -/
theorem Body.fits_of_exprs {τ ρ : Type} {P : τ → Prop} {Q : ρ → Prop} {b : Body τ ρ}
    (h : ∀ e ∈ b.exprs, e.Fits P Q) : b.Fits P Q := by
  have hall : ∀ es : List (Expr τ ρ), (∀ e ∈ es, e.Fits P Q) → Expr.AllFit P Q es := by
    intro es hes
    induction es with
    | nil => trivial
    | cons e es ih =>
        exact ⟨hes e List.mem_cons_self, ih fun e' he' => hes e' (List.mem_cons_of_mem _ he')⟩
  cases b with
  | plain e => exact h e List.mem_cons_self
  | precedence primaries operators =>
      exact ⟨hall primaries fun e he => h e (List.mem_append_left _ he),
        hall operators fun e he => h e (List.mem_append_right _ he)⟩

namespace Source

/-! ### Valid grammars -/

/-- The position of the rule that a name refers to. -/
def positionOf (s : Source) (name : String) : RuleIndex := (s.rules.map Rule.name).idxOf name

/-- The rules with positions in the places of names. Terminals stay as they are written. -/
def linked (s : Source) : List (Rule Terminal RuleIndex) :=
  s.rules.map fun r => ⟨r.name, r.body.map id s.positionOf⟩

/-- What a grammar has to be like. -/
structure Valid (s : Source) : Prop where
  rules_ne_nil : s.rules ≠ []
  nodup_rules : (s.rules.map Rule.name).Nodup
  nodup_lexerRules : (s.lexerRules.map LexerRule.name).Nodup
  references : ∀ rule ∈ s.rules, ∀ e ∈ rule.body.exprs, ∀ name, .rule name ∈ e.nodes →
    name ∈ s.rules.map Rule.name
  tokens : ∀ name, s.Uses (.token name) → name ∈ s.lexerRules.map LexerRule.name
  literals : ∀ text, s.Uses (.literal text) → text ≠ ""
  /-- Nothing is repeated that can match the empty text. -/
  closures : ∀ rule ∈ s.linked,
    rule.body.repeatsNullable (marked (nullableRules s.linked)) = false
  /-- No rule calls itself before it reads a token. -/
  leftCalls : ∀ r, ¬ TransGen (CallsFirst s.linked) r r

variable {s : Source} {rules : List (Rule Label RuleIndex)}

/-- A literal of the parser rules is implicit, or it is the pattern of a lexer rule. -/
theorem exists_literalType? {text : String} (h : s.Uses (.literal text)) :
    ∃ t, s.numbering.literalType? text = some t := by
  rw [Numbering.literalType?]
  cases hidx : s.numbering.literals.idxOf? text with
  | some i => exact ⟨_, rfl⟩
  | none =>
      -- Not being listed, the literal is the pattern of some lexer rule.
      have hnot : ¬ s.IsImplicit text := by
        rw [← mem_numbering_literals_iff]
        exact List.idxOf?_eq_none_iff.mp hidx
      obtain ⟨r, hr, hpattern⟩ : ∃ r ∈ s.lexerRules, r.pattern = .literal text := by
        by_contra hnone
        exact hnot ⟨h, fun r hr heq => hnone ⟨r, hr, heq⟩⟩
      cases hfind : s.numbering.lexerRules.findIdx? fun r => r.pattern.literal? = some text with
      | some j => exact ⟨_, rfl⟩
      | none =>
          have hfalse := List.findIdx?_eq_none_iff.mp hfind r hr
          simp [hpattern, Pattern.literal?] at hfalse

/-- Every symbol of a valid grammar has a token type. -/
theorem Valid.exists_tokenTypeOf (h : s.Valid) (rule : String) {a : Symbol} (ha : s.Uses a) :
    ∃ t, tokenTypeOf s.numbering rule a = .ok t := by
  cases a with
  | endOfInput => exact ⟨_, rfl⟩
  | token name =>
      obtain ⟨r, hr, hname⟩ := List.mem_map.mp (h.tokens name ha)
      cases hfind : s.numbering.lexerRules.findIdx? fun r => r.name = name with
      | some j => exact ⟨_, by rw [tokenTypeOf, Numbering.tokenType?, hfind]; rfl⟩
      | none =>
          have hfalse := List.findIdx?_eq_none_iff.mp hfind r hr
          simp [hname] at hfalse
  | literal text =>
      obtain ⟨t, ht⟩ := exists_literalType? ha
      have hne : ¬ text.isEmpty = true := by
        simpa using h.literals text ha
      exact ⟨t, by rw [tokenTypeOf, if_neg hne, ht]⟩

/-- Every terminal of a valid grammar has a label. -/
theorem Valid.exists_labelOf (h : s.Valid) (rule : String) {t : Terminal}
    (ht : ∀ a ∈ t.symbols, s.Uses a) : ∃ l, labelOf s.numbering rule t = .ok l := by
  have htype : ∀ a, s.Uses a → tokenTypeOf s.numbering rule a = .ok (s.numbering.typeOf a) := by
    intro a ha
    obtain ⟨t, ht⟩ := h.exists_tokenTypeOf rule ha
    rw [ht, typeOf_of_tokenTypeOf ht]
  have hset : ∀ symbols : List Symbol, (∀ a ∈ symbols, s.Uses a) →
      symbols.mapM (tokenTypeOf s.numbering rule) = .ok (symbols.map s.numbering.typeOf) := by
    intro symbols hall
    exact mapM_eq_ok fun a ha => htype a (hall a ha)
  cases t with
  | any => exact ⟨_, rfl⟩
  | one a => exact ⟨_, by rw [labelOf, htype a (ht a List.mem_cons_self)]; rfl⟩
  | oneOf symbols => exact ⟨_, by rw [labelOf, hset symbols ht]; rfl⟩
  | noneOf symbols => exact ⟨_, by rw [labelOf, hset symbols ht]; rfl⟩

/-- All names in a valid grammar can be resolved. -/
theorem Valid.exists_resolve (h : s.Valid) : ∃ rules, s.resolve = .ok rules := by
  have hbody : ∀ rule ∈ s.rules, ∃ body, rule.body.resolve (labelOf s.numbering rule.name)
      (ruleOf (s.rules.map Rule.name) rule.name) = .ok body := by
    intro rule hrule
    refine Body.exists_resolve (Body.fits_of_exprs fun e he => Expr.fits_of_nodes ?_ ?_)
    · intro t ht
      exact h.exists_labelOf rule.name fun a ha => ⟨rule, hrule, e, he, t, ht, ha⟩
    · intro name hname
      have hmem := h.references rule hrule e he name hname
      cases hidx : (s.rules.map Rule.name).idxOf? name with
      | some i => exact ⟨i, by rw [ruleOf, hidx]⟩
      | none => exact absurd hmem (List.idxOf?_eq_none_iff.mp hidx)
  have hinhabited : Nonempty (Body Label RuleIndex) := ⟨.plain .empty⟩
  -- One body for each rule, so that they make up a list of rules.
  choose! body hbody using hbody
  refine ⟨s.rules.map fun rule => ⟨rule.name, body rule⟩, mapM_eq_ok fun rule hrule => ?_⟩
  rw [hbody rule hrule]
  rfl

/-! ### Resolved rules and linked rules -/

/-- A name has one position. -/
theorem positionOf_eq {name : String} {r : RuleIndex} (h : s.IsPosition name r) :
    s.positionOf name = r :=
  (List.findIdx?_eq_some_iff_findIdx_eq.mp h).2

/-- The resolved rules and the linked ones agree in what comes before the first token. -/
theorem alikeInFront_linked (h : s.resolve = .ok rules) : AlikeInFront s.linked rules := by
  have hlength := (mapM_resolve_spec h).1
  refine List.forall₂_iff_get.mpr ⟨by simp [linked, hlength], fun r hr hr' => ?_⟩
  obtain ⟨written, hwritten, hresolves⟩ := body_resolves h (List.getElem?_eq_getElem hr')
  have hlinked : s.linked.get ⟨r, hr⟩ = ⟨written.name, written.body.map id s.positionOf⟩ := by
    have hget : s.linked[r]? = some ⟨written.name, written.body.map id s.positionOf⟩ := by
      simp [linked, hwritten]
    rw [List.getElem?_eq_getElem hr] at hget
    exact Option.some.inj hget
  rw [hlinked]
  -- Both come from the body as it is written.
  have hbody := Body.alikeInFront_of_resolves (fun _ _ => id)
    (written.body.resolves_map id s.positionOf)
  have hpositions : ∀ name i, s.IsPosition name i → s.positionOf name = i :=
    fun _ _ => positionOf_eq
  have hbody' := Body.alikeInFront_of_resolves hpositions hresolves
  exact
    { nullable_eq := fun known => (hbody'.nullable_eq known).trans (hbody.nullable_eq known).symm
      leftCalls_eq := fun known => by
        rw [List.map_id]
        exact (hbody'.leftCalls_eq known).trans (hbody.leftCalls_eq known).symm
      repeats_eq := fun known => (hbody'.repeats_eq known).trans (hbody.repeats_eq known).symm }

/-- The checks are passed exactly if nothing is repeated that can match the empty text, and no rule
calls itself before it reads a token. -/
theorem checkLoops_eq_ok_iff : checkLoops rules = .ok () ↔
    (∀ rule ∈ rules, rule.body.repeatsNullable (marked (nullableRules rules)) = false) ∧
      ∀ r, ¬ TransGen (CallsFirst rules) r r := by
  rw [← leftCycles_eq_nil_iff]
  constructor
  · exact checkLoops_spec
  · rintro ⟨hrepeats, hcycles⟩
    have hnone : (rules.find? fun r => r.body.repeatsNullable (marked (nullableRules rules))) =
        none := by
      rw [List.find?_eq_none]
      intro rule hrule
      rw [hrepeats rule hrule]
      exact Bool.false_ne_true
    simp only [checkLoops, hnone, hcycles]

/-- Resolved rules pass the checks exactly if the linked rules do what they should. -/
theorem checkLoops_iff_linked (h : s.resolve = .ok rules) : checkLoops rules = .ok () ↔
    (∀ rule ∈ s.linked, rule.body.repeatsNullable (marked (nullableRules s.linked)) = false) ∧
      ∀ r, ¬ TransGen (CallsFirst s.linked) r r := by
  have halike := alikeInFront_linked h
  have hcalls : CallsFirst rules = CallsFirst s.linked := by
    funext a b
    exact propext (halike.callsFirst_iff a b)
  rw [checkLoops_eq_ok_iff, halike.repeats_iff, hcalls]

/-- The valid grammars are those that are accepted. -/
theorem valid_iff_exists_build : s.Valid ↔ ∃ g, s.build = .ok g := by
  constructor
  · intro h
    obtain ⟨rules, hresolve⟩ := h.exists_resolve
    have hnames := checkNames_eq_ok_iff.mpr ⟨h.rules_ne_nil, h.nodup_rules, h.nodup_lexerRules⟩
    have hloops := (checkLoops_iff_linked hresolve).mpr ⟨h.closures, h.leftCalls⟩
    have hcheck : s.check = .ok rules := by
      rw [check, hnames, hresolve]
      show (checkLoops rules >>= fun _ => _) = _
      rw [hloops]
      rfl
    exact ⟨_, by rw [build, hcheck]; rfl⟩
  · rintro ⟨g, h⟩
    obtain ⟨hresolve, hloops, -⟩ := build_spec h
    obtain ⟨hne, hrules, hlexer⟩ := checkNames_eq_ok_iff.mp (checkNames_of_build h)
    obtain ⟨hclosures, hcalls⟩ := (checkLoops_iff_linked hresolve).mp hloops
    -- What was resolved was defined: references, tokens and literals.
    refine ⟨hne, hrules, hlexer, ?_, ?_, ?_, hclosures, hcalls⟩
    · intro rule hrule e he name hname
      obtain ⟨r, hr⟩ := List.mem_iff_getElem?.mp hrule
      obtain ⟨rule', -, hresolves⟩ := exists_resolved hresolve hr
      obtain ⟨e', -, hexpr⟩ := hresolves.symm.exists_expr e he
      obtain ⟨x', -, hreference⟩ := hexpr.exists_node _ hname
      cases hreference with
      | rule hposition =>
          obtain ⟨hlt', heq, -⟩ := List.idxOf?_eq_some_iff.mp hposition
          rw [← heq]
          exact List.getElem_mem hlt'
    · intro name ha
      obtain ⟨j, r, -, hr, hname⟩ := Numbering.exists_of_tokenType? (typeOf?_of_uses h ha)
      exact List.mem_map.mpr ⟨r, List.mem_of_getElem? hr, hname⟩
    · rintro text ha rfl
      exact ne_empty_of_uses h ha rfl

end Source

end Caret
