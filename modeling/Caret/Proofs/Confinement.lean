import Caret.Proofs.Operators
import Caret.Proofs.Ungated

/-!
# `Caret.Proofs.Confinement`: explorations that do not look at levels

A network with the pieces of a grammar, with tests in front of its operators or without them, is
explored to an end, and it finds nothing but what derivations lead to.

`Confined s w good a calls v` says this of a state: exploring it in front of the tokens `v` ends,
and what it puts out is `good`. `Grounded.confines` proves it for all pieces, by induction on the
evidence that searches through the grammar end. A rule may be called at any level, and is taken for
a rule that is entered at level zero. For the operand of an operator this is right because operators
behind an operand at level zero are operators of the rule itself (`Yields.loop_cons`,
`Awaits.loop_operand`, `Awaits.loop_cons`).
-/

set_option autoImplicit false

namespace Caret

/-! ### Explorations that find nothing else -/

/-- Exploring from the state comes to an end, and all that it puts out is admissible. -/
def Confined (s : Setting) (w : List TokenType) (good : Effect → Prop) (a : Nat)
    (calls : List Call) (v : List TokenType) : Prop :=
  ∃ outs, Settles s [spot w v a calls] outs ∧ ∀ x ∈ outs, good x

/-- What a phrase can wait for is admissible, and what comes behind it is confined wherever it is
read to its end. -/
structure ConfinedBehind (d : Definitions Label RuleIndex) (s : Setting) (w : List TokenType)
    (good : Effect → Prop) (x : Phrase Label RuleIndex) (b : Nat) (calls : List Call)
    (v : List TokenType) : Prop where
  awaited : ∀ c t chain, Awaits d x v c t → good (.report ⟨.token t, [chain]⟩)
  behind : ∀ y u, v = y ++ u → Yields d x y → Confined s w good b calls u

section

variable {rules : List (Rule Label RuleIndex)} {alphabet : Universe}
  {d : Definitions Label RuleIndex} {s : Setting} {w v : List TokenType} {good : Effect → Prop}
  {a b f : Nat} {calls : List Call} {r : RuleIndex} {level : Int}

namespace Confined

/-- Exploring several targets one after the other ends if exploring each of them does. -/
theorem exists_settles (edges : List Edge)
    (h : ∀ e ∈ edges, Confined s w good e.target calls v) :
    ∃ outs, Settles s (edges.map fun e => spot w v e.target calls) outs ∧ ∀ x ∈ outs, good x := by
  induction edges with
  | nil => exact ⟨[], .nil, by simp⟩
  | cons e edges ih =>
      obtain ⟨outs, houts, hgood⟩ := h e List.mem_cons_self
      obtain ⟨outs', houts', hgood'⟩ := ih fun e' he' => h e' (List.mem_cons_of_mem _ he')
      refine ⟨outs ++ outs', houts.append houts', fun x hx => ?_⟩
      rcases List.mem_append.mp hx with hx | hx
      · exact hgood x hx
      · exact hgood' x hx

/-- A state with edges within the rule is confined if their targets are. It does not matter which
gates are open. -/
theorem of_passes {edges : List Edge} (h : s.network.Leads a edges)
    (hpasses : ∀ e ∈ edges, e.passes = true)
    (hedges : ∀ e ∈ edges, Confined s w good e.target calls v) : Confined s w good a calls v := by
  -- The exploration follows the edges that are open, and these are some of all edges.
  obtain ⟨outs, houts, hgood⟩ := exists_settles (edges.filter _) fun e he =>
    hedges e (List.mem_of_mem_filter he)
  exact ⟨outs, .of_passes h hpasses houts, hgood⟩

/-- Moving on leads to what is confined. -/
theorem of_epsilon (h : s.network.Leads a [.epsilon b]) (hb : Confined s w good b calls v) :
    Confined s w good a calls v := by
  obtain ⟨outs, houts, hgood⟩ := hb
  exact ⟨outs, .of_epsilon h houts, hgood⟩

/-- Of a decision both ways are explored, in the order of its edges. For what is admissible the
order does not matter. -/
theorem of_ways {greedy : Bool} {i : Nat} (h : s.network.Leads a (Network.ways greedy i b))
    (hi : Confined s w good i calls v) (hb : Confined s w good b calls v) :
    Confined s w good a calls v := by
  obtain ⟨inside, hinside, hgood⟩ := hi
  obtain ⟨outside, houtside, hgood'⟩ := hb
  refine ⟨_, .of_ways h hinside houtside, fun x hx => ?_⟩
  -- Whichever way is preferred, what is put out comes from one of the two.
  have hmem : x ∈ inside ∨ x ∈ outside := by
    split at hx
    · exact List.mem_append.mp hx
    · exact (List.mem_append.mp hx).symm
  rcases hmem with hx | hx
  · exact hgood x hx
  · exact hgood' x hx

/-- Reading is confined if what the label waits for is admissible and what comes behind it is
confined. -/
theorem of_read {l : Label} (hstream : s.stream = ⟨w.toArray⟩) (hv : v <:+ w)
    (hl : l.Proper s.network.alphabet) (h : s.network.Leads a [.read b l])
    (hb : ConfinedBehind (.ofRules rules s.network.alphabet) s w good (.expr (.terminal l)) b calls
      v) : Confined s w good a calls v := by
  -- What a terminal waits for and what it reads are the outcomes of a search through it.
  have hsearch : Enumerates (.ofRules rules s.network.alphabet) noAnswers (.expr (.terminal l)) v
      (Outcome.ofSymbols (l.values s.network.alphabet) v) := .terminal
  have hall : ∀ u, .done u ∈ Outcome.ofSymbols (l.values s.network.alphabet) v →
      Confined s w good b calls u := by
    intro u hu
    obtain ⟨y, hy, hyields⟩ := (hsearch.reads u).mp hu
    exact hb.behind y u hy hyields
  -- For each place where the terminal ends, what is put out behind it.
  choose! K hK hgood using hall
  refine ⟨_, .of_read hstream hv hl h hK, fun x hx => ?_⟩
  obtain ⟨o, ho, hx⟩ := List.mem_flatMap.mp hx
  cases o with
  | report id chain =>
      obtain ⟨t, rfl, hawaits⟩ := (hsearch.offers id chain).mp ho
      rw [List.mem_singleton.mp hx]
      exact hb.awaited chain t _ hawaits
  | done u => exact hgood u ho x hx

/-- At the stop state of a rule the exploration goes on where the call returns to. -/
theorem of_return {stop : Nat} (hstop : s.network.stop? r = some stop)
    (h : s.network.Returns r f) (hf : Confined s w good f calls v) :
    Confined s w good stop (⟨r, some f, level⟩ :: calls) v := by
  obtain ⟨outs, houts, hgood⟩ := hf
  exact ⟨outs, .of_return hstop h houts, hgood⟩

/-- A call enters the rule. -/
theorem of_call {start : Nat} (hs : s.Follows w noAnswers) (hv : v <:+ w)
    (h : s.network.Leads a [.call start r f level])
    (hentered : Confined s w good start (⟨r, some f, level⟩ :: calls) v) :
    Confined s w good a calls v := by
  obtain ⟨outs, houts, hgood⟩ := hentered
  have hexplore := explore_call h (hs.entered v a calls start r f level hv rfl)
  exact ⟨outs, Settles.single hexplore (by simp [Effect.isGuard]) houts, hgood⟩

end Confined

/-- What comes behind a phrase that is read after `y` as a part of another one. -/
theorem ConfinedBehind.after {x x' : Phrase Label RuleIndex} {y u : List TokenType} {b' : Nat}
    {calls' : List Call} (h : ConfinedBehind d s w good x b calls (y ++ u))
    (hawaits : ∀ c t, Awaits d x' u c t → ∃ c', Awaits d x (y ++ u) c' t)
    (hyields : ∀ z, Yields d x' z → Yields d x (y ++ z))
    (hb : ∀ u', Confined s w good b calls u' → Confined s w good b' calls' u') :
    ConfinedBehind d s w good x' b' calls' u where
  awaited c t chain hx' := by
    obtain ⟨c', hx⟩ := hawaits c t hx'
    exact h.awaited c' t chain hx
  behind z u' hu hz := by
    refine hb u' (h.behind (y ++ z) u' ?_ (hyields z hz))
    rw [hu, List.append_assoc]

/-- What comes behind a phrase that stands for another one. -/
theorem ConfinedBehind.map {x x' : Phrase Label RuleIndex} {b' : Nat} {calls' : List Call}
    (h : ConfinedBehind d s w good x b calls v)
    (hawaits : ∀ c t, Awaits d x' v c t → ∃ c', Awaits d x v c' t)
    (hyields : ∀ z, Yields d x' z → Yields d x z)
    (hb : ∀ u', Confined s w good b calls u' → Confined s w good b' calls' u') :
    ConfinedBehind d s w good x' b' calls' v :=
  ConfinedBehind.after (y := []) h hawaits hyields hb

/-- The piece of a phrase is confined if what comes behind the phrase is, with rules entered at
level zero. A choice is looked at from its decision on, and so are repeated parts and operators. -/
def Confines (rules : List (Rule Label RuleIndex)) (d : Definitions Label RuleIndex) (s : Setting)
    (w : List TokenType) : Phrase Label RuleIndex → List TokenType → Prop
  | .expr (.alt es), v => ∀ good calls edges b, s.network.Branches es edges b →
      ConfinedBehind d s w good (.expr (.alt es)) b calls v →
        ∀ e ∈ edges, Confined s w good e.target calls v
  | .expr (.star e greedy), v => ∀ good calls p i x b,
      s.network.Leads p (Network.ways greedy i b) → s.network.Wired e i x →
      s.network.Leads x [.epsilon p] →
      ConfinedBehind d s w good (.expr (.star e greedy)) b calls v →
        Confined s w good p calls v
  | .expr e, v => ∀ good calls a b, s.network.Wired e a b →
      ConfinedBehind d s w good (.expr e) b calls v → Confined s w good a calls v
  | .rule r _, v => ∀ good calls a level f, s.network.Calls a r level f →
      ConfinedBehind d s w good (.rule r 0) f calls v → Confined s w good a calls v
  | .body r _, v => ∀ good follow level calls start stop, s.network.start? r = some start →
      s.network.stop? r = some stop →
      ConfinedBehind d s w good (.body r 0) stop (⟨r, follow, level⟩ :: calls) v →
        Confined s w good start (⟨r, follow, level⟩ :: calls) v
  | .loop r _ _, v => ∀ good calls entry edges b primaries operators,
      rules[r]?.map Rule.body = some (.precedence primaries operators) →
      s.network.OperatorWays r entry operators edges →
      s.network.Leads entry (edges ++ [.epsilon b]) →
      ConfinedBehind d s w good (.loop r 0 0) b calls v → Confined s w good entry calls v

/-- The piece of an expression, looked at from its start on. -/
theorem Confines.piece {e : Expr Label RuleIndex} (h : Confines rules d s w (.expr e) v)
    (hwired : s.network.Wired e a b) (hb : ConfinedBehind d s w good (.expr e) b calls v) :
    Confined s w good a calls v := by
  -- Only choices and repeated parts begin with a move to their decision. All other pieces are
  -- looked at from their start anyway.
  cases e with
  | alt es =>
      cases hwired with
      | alt hsource hd hbranches =>
          refine .of_epsilon hsource (.of_passes hd ?_ (h good calls _ b hbranches hb))
          intro e he
          obtain ⟨t, rfl⟩ := hbranches.epsilon e he
          rfl
  | star e greedy =>
      cases hwired with
      | star hsource hways hbody hlast =>
          exact .of_epsilon hsource (h _ _ _ _ _ _ hways hbody hlast hb)
  | terminal l => exact h _ _ _ _ hwired hb
  | rule r => exact h _ _ _ _ hwired hb
  | empty => exact h _ _ _ _ hwired hb
  | seq es => exact h _ _ _ _ hwired hb
  | optional e greedy => exact h _ _ _ _ hwired hb
  | plus e greedy => exact h _ _ _ _ hwired hb

/-- Behind a grounded phrase there are fewer tokens, or the phrase is nullable. -/
theorem Grounded.same_or_later {x : Phrase Label RuleIndex} (h : Grounded rules x v)
    {y u : List TokenType} (hv : v = y ++ u) (hy : Yields (.ofRules rules alphabet) x y) :
    u = v ∧ x.nullable (knownNullable rules) = true ∨ Later u v := by
  have hfair := fair_noAnswers (knownNullable rules)
  obtain ⟨os, hos⟩ : ∃ os, Enumerates (.ofRules rules alphabet) noAnswers x v os :=
    h.exists_enumerates hfair
  have hdone : .done u ∈ os := (hos.reads u).mpr ⟨y, hv, hy⟩
  -- What is left is all, and then nothing was read, or it is less.
  rcases eq_or_later (hos.suffix hdone) with rfl | hlater
  · exact Or.inl ⟨rfl, hos.nullable_of_done hfair hdone⟩
  · exact Or.inr hlater

/-- Behind a part that reads a token there are fewer tokens. -/
theorem Grounded.later {e : Expr Label RuleIndex} (h : Grounded rules (.expr e) v)
    (he : e.nullable (knownNullable rules) = false) {y u : List TokenType} (hv : v = y ++ u)
    (hy : Yields (.ofRules rules alphabet) (.expr e) y) : Later u v := by
  rcases h.same_or_later hv hy with ⟨-, hnullable⟩ | hlater
  · rw [Expr.nullable_of_phrase hnullable] at he
    cases he
  · exact hlater

/-- Operators are confined if each of them is, and if their operands and the operators behind these
are in front of fewer tokens. -/
theorem confines_loop {next : Nat} {primaries operators : List (Expr Label RuleIndex)}
    (hbody : rules[r]?.map Rule.body = some (.precedence primaries operators))
    (hread : ∀ e ∈ operators, ∀ y u, v = y ++ u → Yields (.ofRules rules alphabet) (.expr e) y →
      Later u v)
    (hoperators : ∀ e ∈ operators, Confines rules (.ofRules rules alphabet) s w (.expr e) v)
    (hrule : ∀ u, Later u v → Confines rules (.ofRules rules alphabet) s w (.rule r level) u)
    (hloop : ∀ u, Later u v → Confines rules (.ofRules rules alphabet) s w (.loop r level 0) u) :
    Confines rules (.ofRules rules alphabet) s w (.loop r level next) v := by
  intro good calls entry edges b primaries' operators' hbody' hways hentry hb
  cases hbody.symm.trans hbody'
  refine .of_passes hentry ?_ ?_
  · intro e he
    rcases List.mem_append.mp he with he | he
    · exact (hways e he).1
    · -- The last edge leaves the operators.
      rw [List.mem_singleton.mp he]
      rfl
  · intro e he
    rcases List.mem_append.mp he with he | he
    · obtain ⟨-, o, ho, x, l, f, hwired, hcalls, hlast⟩ := hways e he
      refine (hoperators o ho).piece hwired ⟨fun c t chain hawaits => ?_, ?_⟩
      · exact hb.awaited c t chain (.loop_operator hbody ho hawaits)
      · -- Behind the operator comes its operand, at level zero, and then the operators again.
        rintro y u rfl hy
        have hu := hread o ho y u rfl hy
        refine hrule u hu good calls x l f hcalls ⟨fun c t chain hawaits => ?_, ?_⟩
        · obtain ⟨c', hloop'⟩ := Awaits.loop_operand hbody ho hy hawaits
          exact hb.awaited c' t chain hloop'
        · rintro z u' rfl hz
          have hu' : Later u' (y ++ (z ++ u')) := hu.of_suffix (List.suffix_append z u')
          refine .of_epsilon hlast
            (hloop u' hu' good calls entry edges b _ _ hbody hways hentry ?_)
          rw [← List.append_assoc] at hb
          refine hb.after (fun c t hawaits => ?_) (fun z' hz' => ?_) fun _ h => h
          · rw [List.append_assoc]
            exact Awaits.loop_cons hbody ho hy hz hawaits
          · rw [List.append_assoc]
            exact .loop_cons hbody ho hy hz hz'
    · rw [List.mem_singleton.mp he]
      exact hb.behind [] v rfl .loopEnd

/-- The pieces of a grounded phrase are confined if what comes behind the phrase is. -/
theorem Grounded.confines {x : Phrase Label RuleIndex} (hs : s.Follows w noAnswers)
    (hn : s.network.Outlines rules alphabet) (h : Grounded rules x v) (hv : v <:+ w) :
    Confines rules (.ofRules rules alphabet) s w x v := by
  have halphabet := hn.alphabet_eq
  subst halphabet
  -- Induction on the evidence. Whatever level a rule is called at, it is looked at as if it were
  -- called at level zero.
  induction h with
  | terminal =>
      intro good calls a b hwired hb
      cases hwired with
      | terminal hproper hleads => exact .of_read hs.stream_eq hv hproper hleads hb
  | ref _ ih =>
      intro good calls a b hwired hb
      cases hwired with
      | rule hcalls =>
          exact ih hv good calls a 0 b hcalls (hb.map (fun c t h => ⟨c, .ref rfl h⟩)
            (fun z hz => .ref rfl hz) fun _ h => h)
  | empty =>
      intro good calls a b hwired hb
      cases hwired
      exact hb.behind [] _ rfl .empty
  | seqNil =>
      intro good calls a b hwired hb
      cases hwired
      exact hb.behind [] _ rfl .seqNil
  | @seqCons e es v hfirst _ _ ih ihsame ihlater =>
      intro good calls a b hwired hb
      cases hwired with
      | seqCons hwired hwired' =>
          refine (ih hv).piece hwired ⟨fun c t chain h => hb.awaited c t chain (.seqHead h), ?_⟩
          intro y u hyu hy
          -- The first part reads a token, or it is nullable and the rest is in front of the same.
          have hrest : Confines rules (.ofRules rules s.network.alphabet) s w (.expr (.seq es))
              u := by
            rcases hfirst.same_or_later hyu hy with ⟨rfl, hnullable⟩ | hlater
            · exact ihsame (Expr.nullable_of_phrase hnullable) hv
            · exact ihlater u hlater (hlater.1.trans hv)
          subst hyu
          exact hrest.piece hwired' (hb.after (fun c t h => ⟨c, .seqTail hy h⟩)
            (fun z hz => .seqCons hy hz) fun _ h => h)
  | altNil =>
      intro good calls edges b hbranches hb e he
      cases hbranches
      cases he
  | altCons _ _ ih ih' =>
      intro good calls edges b hbranches hb edge hedge
      cases hbranches with
      | cons hwired hlast hrest =>
          rcases List.mem_cons.mp hedge with rfl | hedge
          · refine (ih hv).piece hwired (hb.map (fun c t h => ?_) (fun z hz => ?_) fun u hu =>
              .of_epsilon hlast hu)
            · exact ⟨c, Awaits.altCons_iff.mpr (Or.inl h)⟩
            · exact Yields.altCons_iff.mpr (Or.inl hz)
          · refine ih' hv good calls _ b hrest (hb.map (fun c t h => ?_) (fun z hz => ?_)
              fun _ h => h) edge hedge
            · exact ⟨c, Awaits.altCons_iff.mpr (Or.inr h)⟩
            · exact Yields.altCons_iff.mpr (Or.inr hz)
  | optional _ ih =>
      intro good calls a b hwired hb
      cases hwired with
      | optional hsource hways hwired hlast =>
          refine .of_epsilon hsource (.of_ways hways ?_ (hb.behind [] _ rfl .optionalSkip))
          exact (ih hv).piece hwired (hb.map (fun c t h => ⟨c, .optional h⟩)
            (fun z hz => .optional hz) fun u hu => .of_epsilon hlast hu)
  | star hnullable hpart _ ih ihlater =>
      intro good calls p i x b hways hwired hlast hb
      refine .of_ways hways ?_ (hb.behind [] _ rfl .starNil)
      refine (ih hv).piece hwired ⟨fun c t chain h => hb.awaited c t chain (.starHead h), ?_⟩
      rintro y u rfl hy
      -- The part reads a token, so the decision is come to again in front of fewer tokens.
      have hu := hpart.later hnullable rfl hy
      exact .of_epsilon hlast (ihlater u hu (hu.1.trans hv) good calls p i x b hways hwired hlast
        (hb.after (fun c t h => ⟨c, .starTail hy h⟩) (fun z hz => .starCons hy hz) fun _ h => h))
  | plus hnullable hpart _ ih ihlater =>
      intro good calls a b hwired hb
      cases hwired with
      | plus hsource hwired hlast hways =>
          refine .of_epsilon hsource ((ih hv).piece hwired
            ⟨fun c t chain h => hb.awaited c t chain (.plusHead h), ?_⟩)
          rintro y u rfl hy
          have hu := hpart.later hnullable rfl hy
          exact .of_epsilon hlast (ihlater u hu (hu.1.trans hv) good calls _ _ _ b hways hwired
            hlast (hb.after (fun c t h => ⟨c, .plusTail hy h⟩) (fun z hz => .plus hy hz)
              fun _ h => h))
  | rule _ _ ih _ =>
      intro good calls a level f hcalls hb
      -- The level of the call is kept in the innermost call, where only gates would look at it.
      obtain ⟨start, hstart, hleads, hreturns⟩ := hcalls
      obtain ⟨-, stop, -, hstop, -⟩ := id hreturns
      refine .of_call hs hv hleads (ih hv good (some f) level calls start stop hstart hstop ?_)
      exact hb.map (fun c t h => ⟨_, .rule h⟩) (fun z hz => .rule hz) fun u hu =>
        .of_return hstop hreturns hu
  | plain hbody _ ih =>
      intro good follow level calls start stop hstart hstop hb
      obtain ⟨start', exit, stop', hstart', hstop', hwired, hlast⟩ := hn.outlined _ _ hbody
      cases hstart.symm.trans hstart'
      cases hstop.symm.trans hstop'
      cases hwired with
      | plain hwired =>
          exact (ih hv).piece hwired (hb.map (fun c t h => ⟨c, .plain hbody h⟩)
            (fun z hz => .plain hbody hz) fun u hu => .of_epsilon hlast hu)
  | @precedence r _ primaries operators v hbody hfirst _ _ ih ihsame ihlater =>
      intro good follow level calls start stop hstart hstop hb
      obtain ⟨start', exit, stop', hstart', hstop', hwired, hlast⟩ := hn.outlined _ _ hbody
      cases hstart.symm.trans hstart'
      cases hstop.symm.trans hstop'
      cases hwired with
      | precedence hwired hsource hways hentry =>
          refine (ih hv).piece hwired
            ⟨fun c t chain h => hb.awaited c t chain (.primary hbody h), ?_⟩
          intro y u hyu hy
          have hrest : Confines rules (.ofRules rules s.network.alphabet) s w (.loop r 0 0) u := by
            rcases hfirst.same_or_later hyu hy with ⟨rfl, hnullable⟩ | hlater
            · exact ihsame hnullable hv
            · exact ihlater u hlater (hlater.1.trans hv)
          subst hyu
          refine .of_epsilon hsource (hrest good _ _ _ _ _ _ hbody hways hentry ?_)
          exact hb.after (fun c t h => ⟨c, .operators hbody hy h⟩)
            (fun z hz => .precedence hbody hy hz) fun u hu => .of_epsilon hlast hu
  | loop hbody hnullable hoperators _ _ ih ihrule ihloop =>
      exact confines_loop hbody
        (fun e he y u hyu hy => (hoperators e he).later (hnullable e he) hyu hy)
        (fun e he => ih e he hv) (fun u hu => ihrule u _ hu (hu.1.trans hv))
        fun u hu => ihloop u hu (hu.1.trans hv)

end

end Caret
