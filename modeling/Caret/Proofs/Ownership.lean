import Caret.Proofs.Acceptance

/-!
# `Caret.Proofs.Ownership`: every state belongs to a rule

A state carries the number of its rule. In a compiled network an edge never crosses from one rule to
another: it leads to a state of the same rule, and a call goes on at a state of the rule that makes
it (`Network.Owned`). The edges of stop states are the exception, they return to callers.

`Owned n P` also says that an edge of a rule has the property `P`, so that one induction over the
compiler (`Expr.compile_continues`) tells which edges a rule can have. `Source.owned_of_build` uses
it with `Source.Permits`: a rule calls only the rules that it refers to in the grammar as it is
written, and the levels of calls and gates are numbers of operators.
-/

set_option autoImplicit false

namespace Caret

namespace Network

/-! ### States of a rule -/

/-- The state is one of the rule. -/
def Belongs (n : Network) (rule : RuleIndex) (a : Nat) : Prop :=
  ∃ s, n.state? a = some s ∧ s.rule = rule

/-- An edge of a rule stays in the rule. For a call this is about where the caller goes on. -/
def Keeps (n : Network) (rule : RuleIndex) : Edge → Prop
  | .call _ _ follow _ => n.Belongs rule follow
  | e => n.Belongs rule e.target

/-- Start and stop states belong to their rules, and an edge within a rule stays there and has the
property `P`. -/
structure Owned (n : Network) (P : RuleIndex → Edge → Prop) : Prop where
  start : ∀ r a, n.start? r = some a → n.Belongs r a
  stop : ∀ r a, n.stop? r = some a → ∃ s, n.state? a = some s ∧ s.rule = r ∧ s.kind = .ruleStop
  edges : ∀ a s, n.state? a = some s → s.kind ≠ .ruleStop →
    ∀ e ∈ s.edges, n.Keeps s.rule e ∧ P s.rule e

/-- Growing from `n` leads to an owned network in which states belong to the rules they belonged to
before. -/
structure Extends (n m : Network) (P : RuleIndex → Edge → Prop) : Prop where
  owned : m.Owned P
  belongs : ∀ r a, n.Belongs r a → m.Belongs r a

/-- Growing from `n` by a piece of a rule leads to a state of the rule. -/
def Continues (n : Network) (P : RuleIndex → Edge → Prop) (rule : RuleIndex) (g : Growth) : Prop :=
  n.Extends g.network P ∧ g.network.Belongs rule g.exit

section

variable {n m k : Network} {P : RuleIndex → Edge → Prop} {rule : RuleIndex} {source : Nat}
  {e : Edge}

/-- A state belongs to one rule. -/
theorem Belongs.unique {r r' : RuleIndex} {a : Nat} (h : n.Belongs r a) (h' : n.Belongs r' a) :
    r = r' := by
  obtain ⟨s, hs, rfl⟩ := h
  obtain ⟨s', hs', rfl⟩ := h'
  cases hs.symm.trans hs'
  rfl

/-- Adding nothing keeps a network owned. -/
theorem Owned.refl (h : n.Owned P) : n.Extends n P := ⟨h, fun _ _ => id⟩

/-- Growing in two parts. -/
theorem Extends.trans (h : n.Extends m P) (h' : m.Extends k P) : n.Extends k P :=
  ⟨h'.owned, fun r a ha => h'.belongs r a (h.belongs r a ha)⟩

/-- An edge stays in its rule as long as states do. -/
theorem Keeps.mono (h : n.Keeps rule e) (hb : ∀ r a, n.Belongs r a → m.Belongs r a) :
    m.Keeps rule e := by
  cases e <;> exact hb _ _ h

/-- A new state belongs to the rule that it is added for. -/
theorem belongs_addState (n : Network) (rule : RuleIndex) (kind : StateKind) :
    (n.addState rule kind).Belongs rule n.states.size :=
  ⟨_, by rw [state?_addState, if_pos rfl], rfl⟩

/-- A new state has no edges, so nothing can leave the rule. -/
theorem extends_addState (h : n.Owned P) (rule : RuleIndex) (kind : StateKind) :
    n.Extends (n.addState rule kind) P := by
  -- The states of `n` keep their places.
  have hold : ∀ a s, n.state? a = some s → (n.addState rule kind).state? a = some s := by
    intro a s hs
    have hlt := state?_lt hs
    rw [state?_addState, if_neg (by omega), hs]
  have hbelongs : ∀ r a, n.Belongs r a → (n.addState rule kind).Belongs r a := by
    rintro r a ⟨s, hs, hr⟩
    exact ⟨s, hold a s hs, hr⟩
  refine ⟨⟨fun r a ha => hbelongs r a (h.start r a ha), ?_, ?_⟩, hbelongs⟩
  · intro r a ha
    obtain ⟨s, hs, hr, hkind⟩ := h.stop r a ha
    exact ⟨s, hold a s hs, hr, hkind⟩
  · intro a s hs hkind e he
    rw [state?_addState] at hs
    split at hs
    · cases hs
      cases he
    · obtain ⟨hkeeps, hP⟩ := h.edges a s hs hkind e he
      exact ⟨hkeeps.mono hbelongs, hP⟩

/-- An edge may be attached to a stop state, or to a state of a rule that it stays in. -/
theorem extends_attach (h : n.Owned P)
    (hsource : ∀ s, n.state? source = some s → s.kind ≠ .ruleStop →
      n.Keeps s.rule e ∧ P s.rule e) :
    n.Extends (n.attach source e) P := by
  have hold : ∀ a s, n.state? a = some s →
      ∃ s', (n.attach source e).state? a = some s' ∧ s'.rule = s.rule ∧ s'.kind = s.kind := by
    intro a s hs
    rw [state?_attach, hs]
    split
    · exact ⟨_, rfl, rfl, rfl⟩
    · exact ⟨s, rfl, rfl, rfl⟩
  have hbelongs : ∀ r a, n.Belongs r a → (n.attach source e).Belongs r a := by
    rintro r a ⟨s, hs, rfl⟩
    obtain ⟨s', hs', hr, -⟩ := hold a s hs
    exact ⟨s', hs', hr⟩
  refine ⟨⟨fun r a ha => hbelongs r a (h.start r a ha), ?_, ?_⟩, hbelongs⟩
  · intro r a ha
    obtain ⟨s, hs, rfl, hkind⟩ := h.stop r a ha
    obtain ⟨s', hs', hr, hkind'⟩ := hold a s hs
    exact ⟨s', hs', hr, hkind'.trans hkind⟩
  · intro a s hs hkind e' he'
    rw [state?_attach] at hs
    split at hs
    · -- The edges of the source are those it had, and the new one.
      rename_i heq
      obtain ⟨s', hs', rfl⟩ := Option.map_eq_some_iff.mp hs
      rcases List.mem_append.mp he' with he' | he'
      · obtain ⟨hkeeps, hP⟩ := h.edges a s' hs' hkind e' he'
        exact ⟨hkeeps.mono hbelongs, hP⟩
      · obtain ⟨hkeeps, hP⟩ := hsource s' (heq ▸ hs') hkind
        rw [List.mem_singleton.mp he']
        exact ⟨hkeeps.mono hbelongs, hP⟩
    · obtain ⟨hkeeps, hP⟩ := h.edges a s hs hkind e' he'
      exact ⟨hkeeps.mono hbelongs, hP⟩

/-- An edge may be added between states of a rule. A call also gives an edge to a stop state, which
is free to return. -/
theorem extends_addEdge (h : n.Owned P) (hsource : n.Belongs rule source) (hkeeps : n.Keeps rule e)
    (hP : P rule e) : n.Extends (n.addEdge source e) P := by
  -- The edge itself is attached last, to a network that may have got the edge that returns before.
  have hattach : ∀ {m : Network}, n.Extends m P → n.Extends (m.attach source e) P := by
    intro m hm
    refine hm.trans (extends_attach hm.owned ?_)
    intro s hs _
    have hrule : s.rule = rule := Belongs.unique ⟨s, hs, rfl⟩ (hm.belongs _ _ hsource)
    rw [hrule]
    exact ⟨hkeeps.mono hm.belongs, hP⟩
  cases e with
  | call target callee follow level =>
      simp only [addEdge]
      split
      · rename_i stop hstop
        -- The stop state of the called rule gets the edge that returns.
        obtain ⟨last, hlast, -, hkind⟩ := h.stop callee stop hstop
        refine hattach (extends_attach h ?_)
        intro s hs hne
        cases hlast.symm.trans hs
        exact absurd hkind hne
      · exact hattach h.refl
  | _ => exact hattach h.refl

/-- Add a state to a rule, and an edge that leads there. -/
theorem extends_step (h : n.Owned P) (hsource : n.Belongs rule source) (kind : StateKind)
    (htarget : e.isCall = false) (hnew : e.target = n.states.size) (hP : P rule e) :
    n.Extends ((n.addState rule kind).addEdge source e) P ∧
      ((n.addState rule kind).addEdge source e).Belongs rule n.states.size := by
  have hstate := extends_addState h rule kind
  have hkeeps : (n.addState rule kind).Keeps rule e := by
    have hthere := belongs_addState n rule kind
    rw [← hnew] at hthere
    cases e with
    | call _ _ _ _ => cases htarget
    | _ => exact hthere
  have hedge := extends_addEdge hstate.owned (hstate.belongs _ _ hsource) hkeeps hP
  exact ⟨hstate.trans hedge, hedge.belongs _ _ (belongs_addState n rule kind)⟩

/-- A new state behind an edge that just moves on. -/
theorem continues_link (h : n.Owned P) (heps : ∀ t, P rule (.epsilon t))
    (hsource : n.Belongs rule source) (kind : StateKind) :
    n.Continues P rule (n.link rule source kind) :=
  extends_step h hsource kind rfl rfl (heps _)

/-- A call goes on at a new state of the rule that makes it. -/
theorem continues_call (h : n.Owned P) (hsource : n.Belongs rule source) {callee : RuleIndex}
    {level : Int} (hP : ∀ t f, P rule (.call t callee f level)) :
    n.Continues P rule (n.call rule source callee level) := by
  have hstate := extends_addState h rule .basic
  have hnew := belongs_addState n rule .basic
  simp only [Continues, call]
  split
  · rename_i start _
    have hedge := extends_addEdge (e := .call start callee n.nextId level) hstate.owned
      (hstate.belongs _ _ hsource) hnew (hP _ _)
    exact ⟨hstate.trans hedge, hedge.belongs _ _ hnew⟩
  · exact ⟨hstate, hnew⟩

/-- The two edges of a decision, in either order. -/
theorem extends_decide (h : n.Owned P) (heps : ∀ t, P rule (.epsilon t)) {d i o : Nat}
    (greedy : Bool) (hd : n.Belongs rule d) (hi : n.Belongs rule i) (ho : n.Belongs rule o) :
    n.Extends (n.decide d i o greedy) P := by
  have htwo : ∀ {b c : Nat}, n.Belongs rule b → n.Belongs rule c →
      n.Extends (n.choose d b c) P := by
    intro b c hb hc
    have hfirst := extends_addEdge (e := .epsilon b) h hd hb (heps b)
    exact hfirst.trans (extends_addEdge (e := .epsilon c) hfirst.owned (hfirst.belongs _ _ hd)
      (hfirst.belongs _ _ hc) (heps c))
  rw [decide]
  split
  · exact htwo hi ho
  · exact htwo ho hi

/-- The start of an optional or repeated part belongs to the rule. -/
theorem extends_branch (h : n.Owned P) (heps : ∀ t, P rule (.epsilon t))
    (hsource : n.Belongs rule source) (greedy : Bool) :
    n.Extends (n.branch rule source greedy) P ∧
      (n.branch rule source greedy).Belongs rule n.states.size ∧
      (n.branch rule source greedy).Belongs rule (n.states.size + 1) ∧
      (n.branch rule source greedy).Belongs rule (n.states.size + 2) := by
  obtain ⟨hlink, hdecision⟩ := continues_link h heps hsource .decision
  have hinside := extends_addState hlink.owned rule .basic
  have houtside := extends_addState hinside.owned rule .basic
  have hi := belongs_addState ((n.addState rule .decision).addEdge source
    (.epsilon n.states.size)) rule .basic
  have ho := belongs_addState (((n.addState rule .decision).addEdge source
    (.epsilon n.states.size)).addState rule .basic) rule .basic
  rw [size_addEdge, size_addState] at hi
  rw [size_addState, size_addEdge, size_addState] at ho
  have hd := houtside.belongs _ _ (hinside.belongs _ _ hdecision)
  have hi' := houtside.belongs _ _ hi
  have hdecide := extends_decide houtside.owned heps greedy hd hi' ho
  exact ⟨((hlink.trans hinside).trans houtside).trans hdecide, hdecide.belongs _ _ hd,
    hdecide.belongs _ _ hi', hdecide.belongs _ _ ho⟩

end

end Network

/-! ### Compiling -/

open Network

section

variable {P : RuleIndex → Edge → Prop} {rule : RuleIndex}

/-- If the edge reads, its label has the property. -/
def Edge.Labelled (P : Label → Prop) : Edge → Prop
  | .read _ l => P l
  | _ => True

/-- The edges that the parts of an expression of a rule compile to have the property. -/
def Expr.Permitted (P : RuleIndex → Edge → Prop) (rule : RuleIndex) (e : Expr Label RuleIndex) :
    Prop :=
  e.Fits (fun l => ∀ t, P rule (.read t l)) (fun callee => ∀ t f, P rule (.call t callee f 0))

mutual

/-- Compiling an expression stays in the rule and adds only edges that are permitted. The induction
is on the expression, as the compiler goes. -/
theorem Expr.compile_continues (heps : ∀ t, P rule (.epsilon t)) :
    ∀ (e : Expr Label RuleIndex) {n : Network} {a : Nat}, n.Owned P → n.Belongs rule a →
      e.Permitted P rule → n.Continues P rule (e.compile rule ⟨n, a⟩)
  | .terminal l, n, a, hn, ha, he => extends_step hn ha .basic rfl rfl (he _)
  | .rule callee, n, a, hn, ha, he => continues_call hn ha he
  | .empty, n, a, hn, ha, _ => ⟨hn.refl, ha⟩
  | .seq es, n, a, hn, ha, he => Expr.compileSeq_continues heps es hn ha he
  | .alt es, n, a, hn, ha, he => by
      obtain ⟨hlink, hdecision⟩ := continues_link hn heps ha .decision
      have hjoin := extends_addState hlink.owned rule .basic
      have hnew := belongs_addState (n.link rule a .decision).network rule .basic
      rw [size_link] at hnew
      have hrest := Expr.compileAlt_extends heps es hjoin.owned
        (hjoin.belongs _ _ hdecision) hnew he
      rw [compile_alt]
      exact ⟨(hlink.trans hjoin).trans hrest, hrest.belongs _ _ hnew⟩
  | .optional body greedy, n, a, hn, ha, he => by
      obtain ⟨hbranch, -, hinside, houtside⟩ := extends_branch hn heps ha greedy
      obtain ⟨hbody, hexit⟩ := Expr.compile_continues heps body hbranch.owned hinside he
      have hout := hbody.belongs _ _ houtside
      have hback := extends_addEdge (e := .epsilon (n.states.size + 2)) hbody.owned hexit hout
        (heps _)
      rw [compile_optional]
      exact ⟨(hbranch.trans hbody).trans hback, hback.belongs _ _ hout⟩
  | .star body greedy, n, a, hn, ha, he => by
      obtain ⟨hbranch, hdecision, hinside, houtside⟩ := extends_branch hn heps ha greedy
      obtain ⟨hbody, hexit⟩ := Expr.compile_continues heps body hbranch.owned hinside he
      have hback := extends_addEdge (e := .epsilon n.states.size) hbody.owned hexit
        (hbody.belongs _ _ hdecision) (heps _)
      rw [compile_star]
      exact ⟨(hbranch.trans hbody).trans hback,
        hback.belongs _ _ (hbody.belongs _ _ houtside)⟩
  | .plus body greedy, n, a, hn, ha, he => by
      obtain ⟨hlink, hinside⟩ := continues_link hn heps ha .basic
      obtain ⟨hbody, hexit⟩ := Expr.compile_continues heps body hlink.owned hinside he
      have hstart := hbody.belongs _ _ hinside
      -- The decision comes behind the body, and one of its edges leads back to the start of it.
      generalize hg : body.compile rule (n.link rule a .basic) = g at hbody hexit hstart
      obtain ⟨hagain, hdecision⟩ := continues_link hbody.owned heps hexit .decision
      have hout := extends_addState hagain.owned rule .basic
      have hnew := belongs_addState (g.network.link rule g.exit .decision).network rule .basic
      rw [size_link] at hnew
      have hdecide := extends_decide hout.owned heps greedy (hout.belongs _ _ hdecision)
        (hout.belongs _ _ (hagain.belongs _ _ hstart)) hnew
      rw [compile_plus rule n a body greedy hg]
      exact ⟨(((hlink.trans hbody).trans hagain).trans hout).trans hdecide,
        hdecide.belongs _ _ hnew⟩

/-- The parts of a sequence, each from the exit of the one before it. -/
theorem Expr.compileSeq_continues (heps : ∀ t, P rule (.epsilon t)) :
    ∀ (es : List (Expr Label RuleIndex)) {n : Network} {a : Nat}, n.Owned P → n.Belongs rule a →
      (Expr.seq es).Permitted P rule → n.Continues P rule (Expr.compileSeq rule es ⟨n, a⟩)
  | [], n, a, hn, ha, _ => ⟨hn.refl, ha⟩
  | e :: es, n, a, hn, ha, he => by
      obtain ⟨hfirst, hexit⟩ := Expr.compile_continues heps e hn ha he.1
      obtain ⟨hrest, hexit'⟩ := Expr.compileSeq_continues heps es hfirst.owned hexit he.2
      exact ⟨hfirst.trans hrest, hexit'⟩

/-- The branches of a choice, between the decision and the state where they join. -/
theorem Expr.compileAlt_extends (heps : ∀ t, P rule (.epsilon t)) :
    ∀ (es : List (Expr Label RuleIndex)) {n : Network} {decision join : Nat}, n.Owned P →
      n.Belongs rule decision → n.Belongs rule join → (Expr.alt es).Permitted P rule →
        n.Extends (Expr.compileAlt rule decision join es n) P
  | [], n, decision, join, hn, _, _, _ => hn.refl
  | e :: es, n, decision, join, hn, hdecision, hjoin, he => by
      obtain ⟨hlink, hentry⟩ := continues_link hn heps hdecision .basic
      obtain ⟨hbody, hexit⟩ := Expr.compile_continues heps e hlink.owned hentry he.1
      have hback := extends_addEdge (e := .epsilon join) hbody.owned hexit
        (hbody.belongs _ _ (hlink.belongs _ _ hjoin)) (heps _)
      have hway := (hlink.trans hbody).trans hback
      exact hway.trans (Expr.compileAlt_extends heps es hway.owned (hway.belongs _ _ hdecision)
        (hway.belongs _ _ hjoin) he.2)

end

/-- The gate of an operator and the call of its operand have the property, for each operator from
the given level down. -/
def LevelsPermitted (P : RuleIndex → Edge → Prop) (rule : RuleIndex) (count : Nat) (level : Int) :
    Prop :=
  ∀ k : Nat, k < count → ∀ t f, P rule (.gate t (level - k)) ∧
    P rule (.call t rule f (level - k + 1))

/-- The operators of a rule, each behind a gate and with a call of the rule behind it. The level
goes down by one from each to the next. -/
theorem Expr.compileOperators_extends (heps : ∀ t, P rule (.epsilon t)) :
    ∀ (es : List (Expr Label RuleIndex)) (level : Int) {n : Network} {entry : Nat}, n.Owned P →
      n.Belongs rule entry → (Expr.alt es).Permitted P rule →
        LevelsPermitted P rule es.length level →
          n.Extends (Expr.compileOperators rule entry es level n) P
  | [], level, n, entry, hn, _, _, _ => hn.refl
  | e :: es, level, n, entry, hn, hentry, he, hlevels => by
      obtain ⟨hgate, hcall⟩ : (∀ t, P rule (.gate t level)) ∧
          ∀ t f, P rule (.call t rule f (level + 1)) := by
        have hfirst := hlevels 0 (Nat.succ_pos _)
        simp only [Int.natCast_zero, Int.sub_zero] at hfirst
        exact ⟨fun t => (hfirst t 0).1, fun t f => (hfirst t f).2⟩
      obtain ⟨hopen, hgated⟩ :=
        extends_step (e := .gate n.states.size level) hn hentry .basic rfl rfl (hgate _)
      obtain ⟨hbody, hexit⟩ := Expr.compile_continues heps e hopen.owned hgated he.1
      obtain ⟨hoperand, hfollow⟩ := continues_call hbody.owned hexit hcall
      have hback := extends_addEdge (e := .epsilon entry) hoperand.owned hfollow
        (hoperand.belongs _ _ (hbody.belongs _ _ (hopen.belongs _ _ hentry))) (heps _)
      have hway := ((hopen.trans hbody).trans hoperand).trans hback
      refine hway.trans (Expr.compileOperators_extends heps es (level - 1) hway.owned
        (hway.belongs _ _ hentry) he.2 ?_)
      -- The levels of the other operators are counted from one level below.
      intro k hk t f
      have hnext := hlevels (k + 1) (Nat.succ_lt_succ hk) t f
      rw [show level - ((k + 1 : Nat) : Int) = level - 1 - (k : Int) by omega] at hnext
      exact hnext

/-- The edges that a body of a rule compiles to have the property. -/
def Body.Permitted (P : RuleIndex → Edge → Prop) (rule : RuleIndex) :
    Body Label RuleIndex → Prop
  | .plain e => e.Permitted P rule
  | .precedence primaries operators => (Expr.alt primaries).Permitted P rule ∧
      (Expr.alt operators).Permitted P rule ∧
      LevelsPermitted P rule operators.length operators.length

/-- Compiling the body of a rule stays in the rule. -/
theorem Body.compile_continues (heps : ∀ t, P rule (.epsilon t)) (body : Body Label RuleIndex)
    {n : Network} {a : Nat} (hn : n.Owned P) (ha : n.Belongs rule a)
    (hbody : body.Permitted P rule) : n.Continues P rule (body.compile rule ⟨n, a⟩) := by
  cases body with
  | plain e => exact e.compile_continues heps hn ha hbody
  | precedence primaries operators =>
      obtain ⟨hprimaries, hoperators, hlevels⟩ := hbody
      obtain ⟨hfirst, hexit⟩ := (Expr.alt primaries).compile_continues heps hn ha hprimaries
      obtain ⟨hlink, hentry⟩ := continues_link hfirst.owned heps hexit .decision
      have hrest := Expr.compileOperators_extends heps operators operators.length hlink.owned
        hentry hoperators hlevels
      obtain ⟨hlast, hexit'⟩ :=
        continues_link hrest.owned heps (hrest.belongs _ _ hentry) .basic
      exact ⟨((hfirst.trans hlink).trans hrest).trans hlast, hexit'⟩

end

namespace Network

variable {P : RuleIndex → Edge → Prop}

/-- Filling in a body ends at the stop state of its own rule. -/
theorem extends_addBody {n : Network} {rule : RuleIndex} {body : Body Label RuleIndex}
    (hn : n.Owned P) (heps : ∀ t, P rule (.epsilon t)) (hbody : body.Permitted P rule) :
    n.Extends (n.addBody rule body) P := by
  rw [addBody]
  split
  · rename_i start stop hstart hstop
    obtain ⟨hpiece, hexit⟩ := body.compile_continues heps hn (hn.start rule start hstart) hbody
    obtain ⟨last, hlast, hrule, -⟩ := hn.stop rule stop hstop
    exact hpiece.trans (extends_addEdge (e := .epsilon stop) hpiece.owned hexit
      (hpiece.belongs _ _ ⟨last, hlast, hrule⟩) (heps _))
  · exact hn.refl

/-- Filling in the bodies of rules one after the other. -/
theorem extends_addBodies (heps : ∀ r t, P r (.epsilon t)) :
    ∀ (rules : List (Rule Label RuleIndex)) {n : Network} {rule : Nat}, n.Owned P →
      (∀ (i : Nat) (r : Rule Label RuleIndex), rules[i]? = some r →
        r.body.Permitted P (rule + i)) →
        n.Extends (n.addBodies rule rules) P
  | [], n, rule, hn, _ => hn.refl
  | r :: rs, n, rule, hn, hrules => by
      have hfirst := extends_addBody hn (heps rule) (hrules 0 r rfl)
      refine hfirst.trans (extends_addBodies heps rs hfirst.owned ?_)
      intro i r' hr'
      have hthere := hrules (i + 1) r' (by rw [List.getElem?_cons_succ]; exact hr')
      rw [show rule + (i + 1) = rule + 1 + i by omega] at hthere
      exact hthere

/-- Start and stop states belong to the rule that they were added for. -/
theorem owned_addRule {n : Network} (h : n.Owned P) (hsize : n.stops.size = n.starts.size) :
    n.addRule.Owned P := by
  have hold : ∀ a s, n.state? a = some s → n.addRule.state? a = some s := by
    intro a s hs
    have hlt := state?_lt hs
    rw [state?_addRule, if_neg (by omega), if_neg (by omega), hs]
  have hbelongs : ∀ r a, n.Belongs r a → n.addRule.Belongs r a := by
    rintro r a ⟨s, hs, hr⟩
    exact ⟨s, hold a s hs, hr⟩
  refine ⟨?_, ?_, ?_⟩
  · intro r a ha
    have hget : (n.starts.push n.states.size)[r]? = some a := ha
    rw [Array.getElem?_push] at hget
    split at hget
    · -- The new rule has the last number.
      rename_i hlast
      cases hget
      refine ⟨_, by rw [state?_addRule, if_neg (by omega), if_pos rfl], ?_⟩
      exact hlast.symm
    · exact hbelongs r a (h.start r a hget)
  · intro r a ha
    have hget : (n.stops.push (n.states.size + 1))[r]? = some a := ha
    rw [Array.getElem?_push] at hget
    split at hget
    · rename_i hlast
      cases hget
      refine ⟨_, by rw [state?_addRule, if_pos rfl], ?_, rfl⟩
      show n.starts.size = r
      omega
    · obtain ⟨s, hs, hr, hkind⟩ := h.stop r a hget
      exact ⟨s, hold a s hs, hr, hkind⟩
  · intro a s hs hkind e he
    rw [state?_addRule] at hs
    split at hs
    · cases hs
      cases he
    · split at hs
      · cases hs
        cases he
      · obtain ⟨hkeeps, hP⟩ := h.edges a s hs hkind e he
        exact ⟨hkeeps.mono hbelongs, hP⟩

/-- Rules without bodies have no edges. -/
theorem owned_repeat (P : RuleIndex → Edge → Prop) (max : TokenType) (k : Nat) :
    (Nat.repeat addRule k (empty max)).Owned P := by
  induction k with
  | zero =>
      refine ⟨?_, ?_, ?_⟩
      · intro r a ha
        simp [Nat.repeat, empty, start?] at ha
      · intro r a ha
        simp [Nat.repeat, empty, stop?] at ha
      · intro a s hs
        simp [Nat.repeat, empty, state?] at hs
  | succ k ih =>
      have hblank := blank_repeat max k
      exact owned_addRule ih (hblank.stops_size.trans hblank.starts_size.symm)

/-- In the network of a list of rules every edge stays in its rule, and is one that the body of the
rule compiles to. -/
theorem ofRules_owned {rules : List (Rule Label RuleIndex)} {max : TokenType}
    (heps : ∀ r t, P r (.epsilon t))
    (hrules : ∀ (r : Nat) (rule : Rule Label RuleIndex), rules[r]? = some rule →
      rule.body.Permitted P r) :
    (ofRules rules max).Owned P := by
  refine (extends_addBodies heps rules (owned_repeat P max rules.length) ?_).owned
  intro i rule hrule
  rw [Nat.zero_add]
  exact hrules i rule hrule

/-- The labels of the network are those of the rules. -/
theorem ofRules_labelled {rules : List (Rule Label RuleIndex)} {max : TokenType}
    {P : Label → Prop} {Q : RuleIndex → Prop} (h : ∀ rule ∈ rules, rule.body.Fits P Q) :
    (ofRules rules max).Owned fun _ => Edge.Labelled P := by
  refine ofRules_owned (fun _ _ => trivial) fun r rule hr => ?_
  have hfits := h rule (List.mem_of_getElem? hr)
  cases hbody : rule.body with
  | plain e =>
      rw [hbody] at hfits
      exact Expr.Fits.mono (fun _ hl _ => hl) (fun _ _ _ _ => trivial) hfits
  | precedence primaries operators =>
      rw [hbody] at hfits
      exact ⟨Expr.AllFit.mono (fun _ hl _ => hl) (fun _ _ _ _ => trivial) hfits.1,
        Expr.AllFit.mono (fun _ hl _ => hl) (fun _ _ _ _ => trivial) hfits.2,
        fun _ _ _ _ => ⟨trivial, trivial⟩⟩

end Network

/-! ### Calls of a grammar as it is written -/

section

variable {τ ρ : Type} {P : τ → Prop} {Q : ρ → Prop}

mutual

/-- What holds of the terminals and references among the parts holds throughout the expression. -/
theorem Expr.fits_of_nodes : ∀ {e : Expr τ ρ}, (∀ t, .terminal t ∈ e.nodes → P t) →
    (∀ r, .rule r ∈ e.nodes → Q r) → e.Fits P Q
  | .terminal t, ht, _ => ht t List.mem_cons_self
  | .rule r, _, hr => hr r List.mem_cons_self
  | .empty, _, _ => trivial
  | .seq _, ht, hr => Expr.allFit_of_nodes (fun t h => ht t (List.mem_cons_of_mem _ h))
      fun r h => hr r (List.mem_cons_of_mem _ h)
  | .alt _, ht, hr => Expr.allFit_of_nodes (fun t h => ht t (List.mem_cons_of_mem _ h))
      fun r h => hr r (List.mem_cons_of_mem _ h)
  | .optional e _, ht, hr => Expr.fits_of_nodes (e := e)
      (fun t h => ht t (List.mem_cons_of_mem _ h)) fun r h => hr r (List.mem_cons_of_mem _ h)
  | .star e _, ht, hr => Expr.fits_of_nodes (e := e)
      (fun t h => ht t (List.mem_cons_of_mem _ h)) fun r h => hr r (List.mem_cons_of_mem _ h)
  | .plus e _, ht, hr => Expr.fits_of_nodes (e := e)
      (fun t h => ht t (List.mem_cons_of_mem _ h)) fun r h => hr r (List.mem_cons_of_mem _ h)

/-- The same for the expressions of a list. -/
theorem Expr.allFit_of_nodes : ∀ {es : List (Expr τ ρ)},
    (∀ t, .terminal t ∈ Expr.nodesOfList es → P t) →
      (∀ r, .rule r ∈ Expr.nodesOfList es → Q r) → Expr.AllFit P Q es
  | [], _, _ => trivial
  | _ :: _, ht, hr =>
      ⟨Expr.fits_of_nodes (fun t h => ht t (List.mem_append_left _ h))
        fun r h => hr r (List.mem_append_left _ h),
      Expr.allFit_of_nodes (fun t h => ht t (List.mem_append_right _ h))
        fun r h => hr r (List.mem_append_right _ h)⟩

end

/-- The parts of two lists of expressions. -/
theorem Expr.nodesOfList_append (es es' : List (Expr τ ρ)) :
    Expr.nodesOfList (es ++ es') = Expr.nodesOfList es ++ Expr.nodesOfList es' := by
  induction es with
  | nil => rfl
  | cons e es ih => simp [nodesOfList, ih]

/-- The rules that a body refers to. Behind an operator comes another operand, so a rule with
operators also refers to itself. -/
def Body.references (self : ρ) (b : Body τ ρ) : List ρ :=
  ((Expr.nodesOfList b.exprs).filterMap fun
    | .rule r => some r
    | _ => none) ++
  match b with
  | .precedence _ (_ :: _) => [self]
  | _ => []

/-- The number of operators of a body. -/
def Body.operatorCount : Body τ ρ → Nat
  | .plain _ => 0
  | .precedence _ operators => operators.length

/-- A reference in the body is one of its references. -/
theorem Body.mem_references {self r : ρ} {b : Body τ ρ} (h : .rule r ∈ Expr.nodesOfList b.exprs) :
    r ∈ b.references self :=
  List.mem_append_left _ (List.mem_filterMap.mpr ⟨_, h, rfl⟩)

end

namespace Source

/-- The rule at one position refers to the rule at the other one. -/
def Calls (s : Source) (caller callee : RuleIndex) : Prop :=
  ∃ r r', s.rules[caller]? = some r ∧ s.rules[callee]? = some r' ∧
    r'.name ∈ r.body.references r.name

/-- The edges that a rule of the grammar may have. A call is one of the grammar, and the levels of
calls and gates count operators. -/
def Permits (s : Source) (rule : RuleIndex) : Edge → Prop
  | .call _ callee _ level => s.Calls rule callee ∧ 0 ≤ level ∧
      ∃ r, s.rules[rule]? = some r ∧ level ≤ r.body.operatorCount + 1
  | .gate _ level => 0 ≤ level ∧ ∃ r, s.rules[rule]? = some r ∧ level ≤ r.body.operatorCount
  | _ => True

variable {s : Source} {g : Grammar}

/-- An expression of a rule is compiled to edges that the rule may have. -/
theorem permitted_of_resolves {r : RuleIndex} {rule : Rule Terminal String}
    (hrule : s.rules[r]? = some rule) {e : Expr Terminal String} {e' : Expr Label RuleIndex}
    (h : Expr.Resolves s.IsLabel s.IsPosition e e')
    (hnodes : ∀ name, .rule name ∈ e.nodes → .rule name ∈ Expr.nodesOfList rule.body.exprs) :
    e'.Permitted s.Permits r := by
  refine Expr.fits_of_nodes (fun _ _ _ => trivial) ?_
  intro callee hcallee t f
  -- The reference stands in the place of a name, and the name is that of the called rule.
  obtain ⟨x, hx, hresolves⟩ := h.exists_node _ hcallee
  cases hresolves with
  | @rule name _ hname =>
      obtain ⟨hlt, heq, -⟩ := List.idxOf?_eq_some_iff.mp hname
      rw [List.length_map] at hlt
      rw [List.getElem_map] at heq
      refine ⟨⟨rule, s.rules[callee], hrule, List.getElem?_eq_getElem hlt, ?_⟩, Int.le_refl 0,
        rule, hrule, by omega⟩
      rw [heq]
      exact Body.mem_references (hnodes name hx)

/-- The body of a rule in an accepted grammar is compiled to edges that the rule may have. -/
theorem permitted_of_build (h : s.build = .ok g) {r : RuleIndex} {rule : Rule Label RuleIndex}
    (hr : g.rules[r]? = some rule) : rule.body.Permitted s.Permits r := by
  obtain ⟨rule', hrule', hresolves⟩ := body_resolves (build_spec h).1 hr
  have hpermitted := @permitted_of_resolves s r rule' hrule'
  obtain ⟨name, body⟩ := rule
  obtain ⟨name', body'⟩ := rule'
  cases hresolves with
  | plain he => exact hpermitted he fun name hname => List.mem_append_left _ hname
  | @precedence primaries operators primaries' operators' hprimaries hoperators =>
      -- A choice is no reference, so the references of a choice are those of its alternatives.
      have hinside : ∀ {es : List (Expr Terminal String)} {name : String},
          .rule name ∈ (Expr.alt es).nodes → .rule name ∈ Expr.nodesOfList es := by
        intro es name hname
        rcases List.mem_cons.mp hname with hname | hname
        · cases hname
        · exact hname
      refine ⟨hpermitted hprimaries ?_, hpermitted hoperators ?_, ?_⟩
      · intro name hname
        show _ ∈ Expr.nodesOfList (primaries ++ operators)
        rw [Expr.nodesOfList_append]
        exact List.mem_append_left _ (hinside hname)
      · intro name hname
        show _ ∈ Expr.nodesOfList (primaries ++ operators)
        rw [Expr.nodesOfList_append]
        exact List.mem_append_right _ (hinside hname)
      · intro k hk t f
        have hlength : operators'.length = operators.length := hoperators.getElem?.1
        -- A rule with an operator calls itself, for the operand behind it.
        have hself : s.Calls r r := by
          refine ⟨_, _, hrule', hrule', List.mem_append_right _ ?_⟩
          cases operators with
          | nil =>
              rw [hlength] at hk
              cases hk
          | cons e es => exact List.mem_cons_self
        refine ⟨⟨by omega, _, hrule', ?_⟩, hself, by omega, _, hrule', ?_⟩
        · rw [Body.operatorCount]
          omega
        · rw [Body.operatorCount]
          omega

/-- In the network of a grammar that is accepted every state belongs to a rule, and the edges of a
rule are those that the rule is written for. -/
theorem owned_of_build (h : s.build = .ok g) : g.recognizer.network.Owned s.Permits := by
  rw [(build_spec h).2.2]
  exact Network.ofRules_owned (fun _ _ => trivial) fun _ _ => permitted_of_build h

end Source

end Caret
