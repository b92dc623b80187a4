import Caret.Proofs.Enumeration
import Caret.Proofs.Wiring

/-!
# `Caret.Proofs.Resolution`: names and numbers

A grammar is written with names and compiled with numbers. `Expr.Resolves` relates an expression
with names to the one with numbers in their places, and `Expr.resolves_of_resolve` states that
`Expr.resolve` finds it. A search through the resolved grammar has the same outcomes as a search
through the grammar as it is written (`Enumerates.of_resolved`).
-/

set_option autoImplicit false

namespace Caret

/-! ### Computations that succeed -/

/-- A mapped computation succeeds if the computation does. -/
theorem exists_of_map_ok {ε α β : Type} {x : Except ε α} {f : α → β} {b : β}
    (h : x.map f = .ok b) : ∃ a, x = .ok a ∧ f a = b := by
  cases x with
  | error e => cases h
  | ok a => exact ⟨a, rfl, Except.ok.inj h⟩

/-- Two computations in a row succeed if both do. -/
theorem exists_of_bind_ok {ε α β : Type} {x : Except ε α} {f : α → Except ε β} {b : β}
    (h : (x >>= f) = .ok b) : ∃ a, x = .ok a ∧ f a = .ok b := by
  cases x with
  | error e => cases h
  | ok a => exact ⟨a, rfl, h⟩

/-! ### Expressions -/

section

variable {τ ρ τ' ρ' : Type} (T : τ → τ' → Prop) (R : ρ → ρ' → Prop)

/-- The second expression has other terminals and references in the places of those of the
first. -/
inductive Expr.Resolves : Expr τ ρ → Expr τ' ρ' → Prop where
  | terminal {t : τ} {t' : τ'} : T t t' → Resolves (.terminal t) (.terminal t')
  | rule {r : ρ} {r' : ρ'} : R r r' → Resolves (.rule r) (.rule r')
  | empty : Resolves .empty .empty
  | seqNil : Resolves (.seq []) (.seq [])
  | seqCons {e : Expr τ ρ} {e' : Expr τ' ρ'} {es : List (Expr τ ρ)} {es' : List (Expr τ' ρ')} :
      Resolves e e' → Resolves (.seq es) (.seq es') → Resolves (.seq (e :: es)) (.seq (e' :: es'))
  | altNil : Resolves (.alt []) (.alt [])
  | altCons {e : Expr τ ρ} {e' : Expr τ' ρ'} {es : List (Expr τ ρ)} {es' : List (Expr τ' ρ')} :
      Resolves e e' → Resolves (.alt es) (.alt es') → Resolves (.alt (e :: es)) (.alt (e' :: es'))
  | optional {e : Expr τ ρ} {e' : Expr τ' ρ'} {greedy : Bool} :
      Resolves e e' → Resolves (.optional e greedy) (.optional e' greedy)
  | star {e : Expr τ ρ} {e' : Expr τ' ρ'} {greedy : Bool} :
      Resolves e e' → Resolves (.star e greedy) (.star e' greedy)
  | plus {e : Expr τ ρ} {e' : Expr τ' ρ'} {greedy : Bool} :
      Resolves e e' → Resolves (.plus e greedy) (.plus e' greedy)

/-- The second body has other terminals and references in the places of those of the first. -/
inductive Body.Resolves : Body τ ρ → Body τ' ρ' → Prop where
  | plain {e : Expr τ ρ} {e' : Expr τ' ρ'} :
      Expr.Resolves T R e e' → Resolves (.plain e) (.plain e')
  | precedence {primaries operators : List (Expr τ ρ)} {primaries' operators' : List (Expr τ' ρ')} :
      Expr.Resolves T R (.alt primaries) (.alt primaries') →
        Expr.Resolves T R (.alt operators) (.alt operators') →
          Resolves (.precedence primaries operators) (.precedence primaries' operators')

/-- Only the expressions of a phrase are written with terminals and references. -/
inductive Phrase.Resolves : Phrase τ ρ → Phrase τ' ρ' → Prop where
  | expr {e : Expr τ ρ} {e' : Expr τ' ρ'} :
      Expr.Resolves T R e e' → Resolves (.expr e) (.expr e')
  | rule {r : RuleIndex} {level : Int} : Resolves (.rule r level) (.rule r level)
  | body {r : RuleIndex} {level : Int} : Resolves (.body r level) (.body r level)
  | loop {r : RuleIndex} {level : Int} {next : Nat} :
      Resolves (.loop r level next) (.loop r level next)

/-- The definitions of a grammar with other terminals and references. -/
structure Definitions.Resolves (d : Definitions τ ρ) (d' : Definitions τ' ρ') : Prop where
  symbols_eq : ∀ t t', T t t' → d'.symbols t' = d.symbols t
  callee_eq : ∀ r r', R r r' → d'.callee r' = d.callee r
  body : ∀ r body', d'.body r = some body' →
    ∃ body, d.body r = some body ∧ Body.Resolves T R body body'

variable {T R}

/-- The expressions of two lists correspond one by one. -/
theorem Expr.Resolves.getElem? {es : List (Expr τ ρ)} {es' : List (Expr τ' ρ')}
    (h : Expr.Resolves T R (.alt es) (.alt es')) :
    es'.length = es.length ∧ ∀ (k : Nat) (e' : Expr τ' ρ'), es'[k]? = some e' →
      ∃ e, es[k]? = some e ∧ Expr.Resolves T R e e' := by
  induction es' generalizing es with
  | nil =>
      cases h with
      | altNil => exact ⟨rfl, by simp⟩
  | cons x' es' ih =>
      cases h with
      | @altCons x _ es _ hfirst hrest =>
          obtain ⟨hlength, hget⟩ := ih hrest
          refine ⟨by simp [hlength], ?_⟩
          intro k e' he'
          cases k with
          | zero =>
              rw [List.getElem?_cons_zero] at he'
              cases he'
              exact ⟨x, rfl, hfirst⟩
          | succ k =>
              rw [List.getElem?_cons_succ] at he'
              exact hget k e' he'

/-- Resolving is also resolving by weaker relations. -/
theorem Expr.Resolves.mono {T' : τ → τ' → Prop} {R' : ρ → ρ' → Prop} {e : Expr τ ρ}
    {e' : Expr τ' ρ'} (h : Expr.Resolves T R e e') (hT : ∀ t t', T t t' → T' t t')
    (hR : ∀ r r', R r r' → R' r r') : Expr.Resolves T' R' e e' := by
  induction h with
  | terminal ht => exact .terminal (hT _ _ ht)
  | rule hr => exact .rule (hR _ _ hr)
  | empty => exact .empty
  | seqNil => exact .seqNil
  | seqCons _ _ ih ih' => exact .seqCons ih ih'
  | altNil => exact .altNil
  | altCons _ _ ih ih' => exact .altCons ih ih'
  | optional _ ih => exact .optional ih
  | star _ ih => exact .star ih
  | plus _ ih => exact .plus ih

/-- The first expression has the old terminals and references in the places of those of the
second. -/
theorem Expr.Resolves.symm {e : Expr τ ρ} {e' : Expr τ' ρ'} (h : Expr.Resolves T R e e') :
    Expr.Resolves (fun t' t => T t t') (fun r' r => R r r') e' e := by
  induction h with
  | terminal ht => exact .terminal ht
  | rule hr => exact .rule hr
  | empty => exact .empty
  | seqNil => exact .seqNil
  | seqCons _ _ ih ih' => exact .seqCons ih ih'
  | altNil => exact .altNil
  | altCons _ _ ih ih' => exact .altCons ih ih'
  | optional _ ih => exact .optional ih
  | star _ ih => exact .star ih
  | plus _ ih => exact .plus ih

/-- What holds of the new terminals and references holds throughout the expression. -/
theorem Expr.Resolves.fits {P : τ' → Prop} {Q : ρ' → Prop} {e : Expr τ ρ} {e' : Expr τ' ρ'}
    (h : Expr.Resolves T R e e') (hT : ∀ t t', T t t' → P t') (hR : ∀ r r', R r r' → Q r') :
    e'.Fits P Q := by
  induction h with
  | terminal ht => exact hT _ _ ht
  | rule hr => exact hR _ _ hr
  | empty => trivial
  | seqNil => trivial
  | seqCons _ _ ih ih' => exact ⟨ih, ih'⟩
  | altNil => trivial
  | altCons _ _ ih ih' => exact ⟨ih, ih'⟩
  | optional _ ih => exact ih
  | star _ ih => exact ih
  | plus _ ih => exact ih

/-- Every part of the second expression stands in the place of a part of the first. -/
theorem Expr.Resolves.exists_node {e : Expr τ ρ} {e' : Expr τ' ρ'} (h : Expr.Resolves T R e e') :
    ∀ x' ∈ e'.nodes, ∃ x ∈ e.nodes, Expr.Resolves T R x x' := by
  -- The rest of a sequence or a choice is no part of it, so the induction is about proper parts.
  have hself : ∀ {e : Expr τ ρ} {e' : Expr τ' ρ'}, Expr.Resolves T R e e' →
      (∀ x' ∈ e'.nodes.tail, ∃ x ∈ e.nodes.tail, Expr.Resolves T R x x') →
        ∀ x' ∈ e'.nodes, ∃ x ∈ e.nodes, Expr.Resolves T R x x' := by
    intro e e' h hparts x' hx'
    have hcons : ∀ {τ ρ : Type} (e : Expr τ ρ), e.nodes = e :: e.nodes.tail := by
      intro τ ρ e
      cases e <;> rfl
    rw [hcons] at hx'
    rw [hcons]
    rcases List.mem_cons.mp hx' with rfl | hx'
    · exact ⟨e, List.mem_cons_self, h⟩
    · obtain ⟨x, hx, hresolves⟩ := hparts x' hx'
      exact ⟨x, List.mem_cons_of_mem _ hx, hresolves⟩
  have happend : ∀ {xs ys : List (Expr τ ρ)} {xs' ys' : List (Expr τ' ρ')},
      (∀ x' ∈ xs', ∃ x ∈ xs, Expr.Resolves T R x x') →
        (∀ x' ∈ ys', ∃ x ∈ ys, Expr.Resolves T R x x') →
          ∀ x' ∈ xs' ++ ys', ∃ x ∈ xs ++ ys, Expr.Resolves T R x x' := by
    intro xs ys xs' ys' hxs hys x' hx'
    rcases List.mem_append.mp hx' with hx' | hx'
    · obtain ⟨x, hx, hresolves⟩ := hxs x' hx'
      exact ⟨x, List.mem_append_left _ hx, hresolves⟩
    · obtain ⟨x, hx, hresolves⟩ := hys x' hx'
      exact ⟨x, List.mem_append_right _ hx, hresolves⟩
  refine hself h ?_
  induction h with
  | terminal _ => exact fun _ hx' => nomatch hx'
  | rule _ => exact fun _ hx' => nomatch hx'
  | empty => exact fun _ hx' => nomatch hx'
  | seqNil => exact fun _ hx' => nomatch hx'
  | altNil => exact fun _ hx' => nomatch hx'
  | seqCons hfirst _ ih ih' => exact happend (hself hfirst ih) ih'
  | altCons hfirst _ ih ih' => exact happend (hself hfirst ih) ih'
  | optional hbody ih => exact hself hbody ih
  | star hbody ih => exact hself hbody ih
  | plus hbody ih => exact hself hbody ih

/-- The same for bodies. -/
theorem Body.Resolves.mono {T' : τ → τ' → Prop} {R' : ρ → ρ' → Prop} {b : Body τ ρ}
    {b' : Body τ' ρ'} (h : Body.Resolves T R b b') (hT : ∀ t t', T t t' → T' t t')
    (hR : ∀ r r', R r r' → R' r r') : Body.Resolves T' R' b b' := by
  cases h with
  | plain he => exact .plain (he.mono hT hR)
  | precedence hprimaries hoperators =>
      exact .precedence (hprimaries.mono hT hR) (hoperators.mono hT hR)

/-- Bodies too can be resolved backwards. -/
theorem Body.Resolves.symm {b : Body τ ρ} {b' : Body τ' ρ'} (h : Body.Resolves T R b b') :
    Body.Resolves (fun t' t => T t t') (fun r' r => R r r') b' b := by
  cases h with
  | plain he => exact .plain he.symm
  | precedence hprimaries hoperators => exact .precedence hprimaries.symm hoperators.symm

/-- What holds of the new terminals and references holds throughout the body. -/
theorem Body.Resolves.fits {P : τ' → Prop} {Q : ρ' → Prop} {b : Body τ ρ} {b' : Body τ' ρ'}
    (h : Body.Resolves T R b b') (hT : ∀ t t', T t t' → P t') (hR : ∀ r r', R r r' → Q r') :
    b'.Fits P Q := by
  cases h with
  | plain he => exact he.fits hT hR
  | precedence hprimaries hoperators =>
      exact ⟨hprimaries.fits hT hR, hoperators.fits hT hR⟩

/-- A search through the resolved grammar is a search through the grammar as it is written. -/
theorem Enumerates.of_resolved {d : Definitions τ ρ} {d' : Definitions τ' ρ'} {answers : Answers}
    {x' : Phrase τ' ρ'} {rest : List TokenType} {os : List Outcome} (hd : d.Resolves T R d')
    (h : Enumerates d' answers x' rest os) {x : Phrase τ ρ} (hx : Phrase.Resolves T R x x') :
    Enumerates d answers x rest os := by
  -- Induction on the search, which goes through the two grammars in step. Only terminals,
  -- references and bodies are looked up in the definitions.
  induction h generalizing x with
  | terminal =>
      cases hx with
      | expr he =>
          cases he with
          | terminal ht =>
              rw [hd.symbols_eq _ _ ht]
              exact .terminal
  | ref hcallee _ ih =>
      cases hx with
      | expr he =>
          cases he with
          | rule hr => exact .ref ((hd.callee_eq _ _ hr).symm.trans hcallee) (ih .rule)
  | empty =>
      cases hx with
      | expr he =>
          cases he
          exact .empty
  | seqNil =>
      cases hx with
      | expr he =>
          cases he
          exact .seqNil
  | seqCons _ _ ih ih' =>
      cases hx with
      | expr he =>
          cases he with
          | seqCons hfirst hrest =>
              exact .seqCons (ih (.expr hfirst)) fun u hu => ih' u hu (.expr hrest)
  | altNil =>
      cases hx with
      | expr he =>
          cases he
          exact .altNil
  | altCons _ _ ih ih' =>
      cases hx with
      | expr he =>
          cases he with
          | altCons hfirst hrest => exact .altCons (ih (.expr hfirst)) (ih' (.expr hrest))
  | optional _ ih =>
      cases hx with
      | expr he =>
          cases he with
          | optional hbody => exact .optional (ih (.expr hbody))
  | star _ _ ih ih' =>
      cases hx with
      | expr he =>
          cases he with
          | star hbody =>
              exact .star (ih (.expr hbody)) fun u hu => ih' u hu (.expr (.star hbody))
  | plus _ _ ih ih' =>
      cases hx with
      | expr he =>
          cases he with
          | plus hbody =>
              exact .plus (ih (.expr hbody)) fun u hu => ih' u hu (.expr (.star hbody))
  | answered hanswer =>
      cases hx
      exact .answered hanswer
  | entered hanswer _ ih =>
      cases hx
      exact .entered hanswer (ih .body)
  | plain hbody _ ih =>
      cases hx
      obtain ⟨body, hbody', hresolves⟩ := hd.body _ _ hbody
      cases hresolves with
      | plain he => exact .plain hbody' (ih (.expr he))
  | precedence hbody _ _ ih ih' =>
      cases hx
      obtain ⟨body, hbody', hresolves⟩ := hd.body _ _ hbody
      cases hresolves with
      | precedence hprimaries _ =>
          exact .precedence hbody' (ih (.expr hprimaries)) fun u hu => ih' u hu .loop
  | loopEnd hbody hnext =>
      cases hx
      obtain ⟨body, hbody', hresolves⟩ := hd.body _ _ hbody
      cases hresolves with
      | precedence _ hoperators => exact .loopEnd hbody' (hoperators.getElem?.1 ▸ hnext)
  | loopSkip hbody hnext hlevel _ ih =>
      cases hx
      obtain ⟨body, hbody', hresolves⟩ := hd.body _ _ hbody
      cases hresolves with
      | precedence _ hoperators =>
          rw [hoperators.getElem?.1] at hnext hlevel
          exact .loopSkip hbody' hnext hlevel (ih .loop)
  | loopMore hbody hoperator hlevel _ _ _ _ ih ih' ih'' ihrest =>
      cases hx
      obtain ⟨body, hbody', hresolves⟩ := hd.body _ _ hbody
      cases hresolves with
      | precedence _ hoperators =>
          obtain ⟨hlength, hget⟩ := hoperators.getElem?
          obtain ⟨e, he, hresolves⟩ := hget _ _ hoperator
          -- The level of an operator counts from the end of the list, so the lists must have the
          -- same length.
          rw [hlength] at hlevel ih'
          exact .loopMore hbody' he hlevel (ih (.expr hresolves)) (fun u hu => ih' u hu .rule)
            (fun u hu => ih'' u hu .loop) (ihrest .loop)

end

/-! ### Resolving -/

section

variable {ε τ ρ τ' ρ' : Type} {terminalOf : τ → Except ε τ'} {ruleOf : ρ → Except ε ρ'}

mutual

/-- An expression that is resolved has the terminals and references that were looked up. -/
theorem Expr.resolves_of_resolve : ∀ {e : Expr τ ρ} {e' : Expr τ' ρ'},
    e.resolve terminalOf ruleOf = .ok e' →
      Expr.Resolves (fun t t' => terminalOf t = .ok t') (fun r r' => ruleOf r = .ok r') e e'
  | .terminal t, e', h => by
      rw [resolve] at h
      obtain ⟨t', ht, rfl⟩ := exists_of_map_ok h
      exact .terminal ht
  | .rule r, e', h => by
      rw [resolve] at h
      obtain ⟨r', hr, rfl⟩ := exists_of_map_ok h
      exact .rule hr
  | .empty, e', h => by
      rw [resolve] at h
      cases h
      exact .empty
  | .seq es, e', h => by
      rw [resolve] at h
      obtain ⟨es', hes, rfl⟩ := exists_of_map_ok h
      exact (Expr.resolves_of_resolveList hes).1
  | .alt es, e', h => by
      rw [resolve] at h
      obtain ⟨es', hes, rfl⟩ := exists_of_map_ok h
      exact (Expr.resolves_of_resolveList hes).2
  | .optional body greedy, e', h => by
      rw [resolve] at h
      obtain ⟨body', hbody, rfl⟩ := exists_of_map_ok h
      exact .optional (Expr.resolves_of_resolve hbody)
  | .star body greedy, e', h => by
      rw [resolve] at h
      obtain ⟨body', hbody, rfl⟩ := exists_of_map_ok h
      exact .star (Expr.resolves_of_resolve hbody)
  | .plus body greedy, e', h => by
      rw [resolve] at h
      obtain ⟨body', hbody, rfl⟩ := exists_of_map_ok h
      exact .plus (Expr.resolves_of_resolve hbody)

/-- A list is resolved in the same way, whether its expressions stand in a sequence or in a
choice. -/
theorem Expr.resolves_of_resolveList : ∀ {es : List (Expr τ ρ)} {es' : List (Expr τ' ρ')},
    Expr.resolveList terminalOf ruleOf es = .ok es' →
      Expr.Resolves (fun t t' => terminalOf t = .ok t') (fun r r' => ruleOf r = .ok r')
          (.seq es) (.seq es') ∧
        Expr.Resolves (fun t t' => terminalOf t = .ok t') (fun r r' => ruleOf r = .ok r')
          (.alt es) (.alt es')
  | [], es', h => by
      rw [resolveList] at h
      cases h
      exact ⟨.seqNil, .altNil⟩
  | e :: es, es', h => by
      rw [resolveList] at h
      obtain ⟨first, hfirst, h⟩ := exists_of_bind_ok h
      obtain ⟨rest, hrest, h⟩ := exists_of_bind_ok h
      cases h
      have hhead := Expr.resolves_of_resolve hfirst
      obtain ⟨hseq, halt⟩ := Expr.resolves_of_resolveList hrest
      exact ⟨.seqCons hhead hseq, .altCons hhead halt⟩

end

/-- A body that is resolved has the terminals and references that were looked up. -/
theorem Body.resolves_of_resolve {b : Body τ ρ} {b' : Body τ' ρ'}
    (h : b.resolve terminalOf ruleOf = .ok b') :
    Body.Resolves (fun t t' => terminalOf t = .ok t') (fun r r' => ruleOf r = .ok r') b b' := by
  cases b with
  | plain e =>
      obtain ⟨e', he, rfl⟩ := exists_of_map_ok h
      exact .plain (Expr.resolves_of_resolve he)
  | precedence primaries operators =>
      obtain ⟨primaries', hprimaries, h⟩ := exists_of_bind_ok h
      obtain ⟨operators', hoperators, h⟩ := exists_of_bind_ok h
      cases h
      exact .precedence (Expr.resolves_of_resolveList hprimaries).2
        (Expr.resolves_of_resolveList hoperators).2

end

end Caret
