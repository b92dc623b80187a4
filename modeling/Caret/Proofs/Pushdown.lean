import Caret.Proofs.Runs
import Caret.Proofs.Terminal

/-!
# `Caret.Proofs.Pushdown`: remembering passed states only keeps loops out

Without the list of passed states a network is a pushdown system. A configuration is a state with
the open calls and the number of tokens read, and `Configuration.Step` goes along one edge. Nothing
keeps this system from going round in circles that read nothing.

The machine does not enter a state twice on a stretch without tokens and rule boundaries.
`traverse_eq_unrestricted` states that it loses nothing by this: a traversal that ends has found
what the reachable configurations offer, and it has reached the end if one of them completes the
rule. The network need not come from a grammar. It is enough that states inside rules, starts of
rules and follow states are kept apart (`Network.Segmented`).

The invariant behind it is `Position.Traced`. A state that the machine refuses to enter was entered
before with the same calls and the same tokens read, so the configuration in question was explored
already. This would fail if a start state or a follow state could be in the list of passed states,
since these are entered with other calls.
-/

set_option autoImplicit false

namespace Caret

/-! ### The pushdown system -/

/-- A state with the open calls, innermost first, and the number of tokens read. -/
structure Configuration where
  state : StateId
  calls : List Call
  index : Nat

/-- The position without the states that were passed. -/
def Position.configuration (p : Position) : Configuration := ⟨p.state, p.calls, p.index⟩

namespace Configuration

/-- The precedence level of the innermost call. -/
def level (c : Configuration) : Int := (c.calls.head?.map Call.level).getD 0

/-- The rules that are open, outermost first. -/
def chain (c : Configuration) : Chain := (c.calls.map Call.rule).reverse

variable (n : Network) (w : List TokenType)

/-- The edge leads on from the configuration. In a stop state the innermost call is closed, and the
edge must lead to where the caller goes on. -/
inductive Departs (c : Configuration) : Edge → Configuration → Prop where
  | inside {state : State} {e : Edge} : n.state? c.state = some state → state.kind ≠ .ruleStop →
      e ∈ state.edges → Departs c e c
  | leaving {state : State} {e : Edge} {rule : RuleIndex} {f : StateId} {level : Int}
      {callers : List Call} : n.state? c.state = some state → state.kind = .ruleStop →
      c.calls = ⟨rule, some f, level⟩ :: callers → e ∈ state.edges → e.target = f →
        Departs c e { c with calls := callers }

/-- The edge leads from one configuration to the other. -/
inductive Along (c : Configuration) : Edge → Configuration → Prop where
  | epsilon (t : StateId) : Along c (.epsilon t) { c with state := t }
  | command (t : StateId) (k : Nat) : Along c (.command t k) { c with state := t }
  | gate (t : StateId) {level : Int} : c.level ≤ level →
      Along c (.gate t level) { c with state := t }
  | call (t : StateId) (rule : RuleIndex) (f : StateId) (level : Int) :
      Along c (.call t rule f level) ⟨t, ⟨rule, some f, level⟩ :: c.calls, c.index⟩
  | read (t : StateId) {label : Label} {a : TokenType} : w[c.index]? = some a →
      label.admits n.alphabet a = true →
        Along c (.read t label) ⟨t, c.calls, c.index + 1⟩

/-- One step of the pushdown system. An edge to a state that does not exist leads nowhere. -/
def Step (c d : Configuration) : Prop :=
  ∃ e c', c.Departs n e c' ∧ e.target < n.states.size ∧ Along n w c' e d

/-- With all tokens read, an edge of the configuration would read the token type next. -/
def Offers (c : Configuration) (t : TokenType) (chain : Chain) : Prop :=
  c.index = w.length ∧ ∃ target label c', c.Departs n (.read target label) c' ∧
    target < n.states.size ∧ label.admits n.alphabet t = true ∧ chain = c'.chain

/-- The first rule is complete, and all tokens are read. -/
def Completes (c : Configuration) : Prop :=
  c.index = w.length ∧ (∃ state, n.state? c.state = some state ∧ state.kind = .ruleStop) ∧
    ∀ call callers, c.calls = call :: callers → call.follow = none

/-- The pushdown system comes to the configuration from the start of the rule. -/
def Reachable (rule : RuleIndex) (c : Configuration) : Prop :=
  ∃ start, n.start? rule = some start ∧
    Relation.ReflTransGen (Step n w) ⟨start, [⟨rule, none, 0⟩], 0⟩ c

end Configuration

/-- The state where the caller goes on, for an edge that calls. -/
def Edge.follow? : Edge → Option StateId
  | .call _ _ f _ => some f
  | _ => none

/-- The stretches inside rules are kept apart: calls lead to the starts of rules, edges within a
rule do not, and a state where a caller goes on is entered from stop states only. -/
structure Network.Segmented (n : Network) : Prop where
  labels : ∀ s ∈ n.states, ∀ e ∈ s.edges, ∀ l ∈ e.label?, l.Canonical
  call_start : ∀ s ∈ n.states, ∀ e ∈ s.edges, e.isCall = true →
    ∀ s' ∈ n.state? e.target, s'.kind = .ruleStart
  start_unpassed : ∀ s ∈ n.states, ∀ e ∈ s.edges, e.passes = true →
    ∀ s' ∈ n.state? e.target, s'.kind ≠ .ruleStart
  follow_entered : ∀ s ∈ n.states, ∀ e ∈ s.edges, ∀ s' ∈ n.states, ∀ e' ∈ s'.edges,
    e'.follow? = some e.target → s.kind = .ruleStop ∧ e = .epsilon e.target

/-- A state that is found by its number is one of the states. -/
theorem Network.mem_of_state? {n : Network} {a : StateId} {s : State} (h : n.state? a = some s) :
    s ∈ n.states :=
  Array.mem_of_getElem? h

/-- What it takes for a traversal not to lose anything: neither a state where a caller goes on nor
the start of a called rule is entered within a stretch. -/
structure Network.Apart (n : Network) : Prop where
  follow_unpassed : ∀ f, n.IsFollow f → ¬ n.IsPassed f
  target_unpassed : ∀ a s, n.state? a = some s → ∀ e ∈ s.edges, e.isCall = true →
    e.target < n.states.size → ¬ n.IsPassed e.target

/-- Stretches that are kept apart by the kinds of states do not share follow states or starts. -/
theorem Network.Segmented.apart {n : Network} (h : n.Segmented) : n.Apart where
  follow_unpassed := by
    rintro f ⟨b, s', hs', target, rule, level, hcall⟩ ⟨a, s, hs, hkind, e, he, -, rfl⟩
    exact hkind (h.follow_entered s (mem_of_state? hs) e he s' (mem_of_state? hs') _ hcall rfl).1
  target_unpassed := by
    rintro a s hs e he hcall hlt ⟨b, s', hs', -, e', he', hpasses, htarget⟩
    -- The target of a call is a start state, and no edge within a rule leads to one.
    have hstart : n.state? e.target = some n.states[e.target] := Array.getElem?_eq_getElem hlt
    refine h.start_unpassed s' (mem_of_state? hs') e' he' hpasses _ ?_
      (h.call_start s (mem_of_state? hs) e he hcall _ hstart)
    rw [htarget]
    exact hstart

/-! ### One edge -/

section

variable {s : Setting} {p q : Position} {effects : List Effect}

/-- Without options a call enters the rule. -/
theorem call_of_options_none (hs : s.options = .none) (t : StateId) (rule : RuleIndex)
    (f : StateId) (level : Int) :
    s.call p t rule f level = .ok [.visit (p.call t ⟨rule, some f, level⟩)] := by
  have henter : s.enter p t rule f level = [.visit (p.call t ⟨rule, some f, level⟩)] := by
    simp [Setting.enter, hs, Options.none]
  unfold Setting.call
  rw [henter, hs]
  cases s.stream.lookahead p.index with
  | none => rfl
  | some next => cases next <;> simp [Options.none]

/-- A state is entered unless it was passed before. Leaving a rule forgets what was passed. -/
theorem visit_mem_pass {leaving : Bool} {t : StateId} :
    .visit q ∈ Setting.pass p leaving t ↔
      t ∉ p.visited ∧ q = if leaving then p.enter t else p.pass t := by
  rw [Setting.pass]
  split <;> simp_all

/-- Only the state changes. -/
theorem configuration_of_mem_pass {leaving : Bool} {t : StateId}
    (hq : .visit q ∈ Setting.pass p leaving t) :
    q.configuration = { p.configuration with state := t } := by
  rw [(visit_mem_pass.mp hq).2]
  cases leaving <;> rfl

/-- A state that was not passed is entered. -/
theorem exists_mem_pass {leaving : Bool} {t : StateId} (ht : t ∉ p.visited) :
    ∃ q, .visit q ∈ Setting.pass p leaving t ∧
      q.configuration = { p.configuration with state := t } := by
  have hq : .visit (if leaving then p.enter t else p.pass t) ∈ Setting.pass p leaving t :=
    visit_mem_pass.mpr ⟨ht, rfl⟩
  exact ⟨_, hq, configuration_of_mem_pass hq⟩

variable {w : List TokenType}

/-- In front of the caret the next symbol is a token. -/
theorem lookahead_eq_token_iff (hw : s.stream = ⟨w.toArray⟩) {i : Nat} {a : TokenType} :
    s.stream.lookahead i = some (.token a) ↔ w[i]? = some a := by
  rw [TokenStream.lookahead, hw]
  simp only [List.getElem?_toArray]
  cases w[i]? with
  | none => simp [ite_eq_iff]
  | some b => simp

/-- Behind all tokens there is the caret. -/
theorem lookahead_eq_caret_iff (hw : s.stream = ⟨w.toArray⟩) {i : Nat} :
    s.stream.lookahead i = some .caret ↔ i = w.length := by
  rw [TokenStream.lookahead, hw]
  simp only [List.getElem?_toArray, TokenStream.caret, List.size_toArray]
  cases hi : w[i]? with
  | none => simp
  | some b =>
      have hlt := (List.getElem?_eq_some_iff.mp hi).1
      simp only [Option.some.injEq, reduceCtorEq, false_iff]
      omega

/-- Reading leads on if the token at the position is admitted. -/
theorem visit_mem_read {t : StateId} {label : Label} (hw : s.stream = ⟨w.toArray⟩)
    (h : s.read p (.read t label) = .ok effects) :
    .visit q ∈ effects ↔ (∃ a, w[p.index]? = some a ∧
      label.admits s.network.alphabet a = true) ∧ q = p.advance t := by
  obtain ⟨hlook, set, -, rfl⟩ | ⟨a, hlook, rfl⟩ | ⟨hlook, rfl⟩ := read_cases h
  · have hnone : w[p.index]? = none :=
      List.getElem?_eq_none ((lookahead_eq_caret_iff hw).mp hlook).ge
    simp [hnone]
  · rw [lookahead_eq_token_iff hw] at hlook
    split <;> simp_all
  · have hnone : ∀ a, w[p.index]? ≠ some a := by
      intro a ha
      rw [(lookahead_eq_token_iff hw).mpr ha] at hlook
      cases hlook
    simp [hnone]

/-- At the caret all admitted symbols are reported, with the rules that are open. -/
theorem report_mem_read {t : StateId} {label : Label} {c : Candidate}
    (hw : s.stream = ⟨w.toArray⟩) (hlabel : label.Canonical)
    (h : s.read p (.read t label) = .ok effects) :
    .report c ∈ effects ↔ p.index = w.length ∧
      ∃ a, label.admits s.network.alphabet a = true ∧ c = ⟨.token a, [p.chain]⟩ := by
  rw [← lookahead_eq_caret_iff hw]
  obtain ⟨hlook, set, hset, rfl⟩ | ⟨a, hlook, rfl⟩ | ⟨hlook, rfl⟩ := read_cases h
  · simp only [List.mem_map, hlook, true_and, Effect.report.injEq,
      Label.mem_symbols_iff hlabel hset, eq_comm]
  · split <;> simp [hlook]
  · simp [hlook]

/-- An edge leads to the configurations that the pushdown system comes to along it, unless its
target was passed before. -/
theorem visit_mem_follow (hs : s.options = .none) (hw : s.stream = ⟨w.toArray⟩) {leaving : Bool}
    {e : Edge} (h : s.follow p leaving e = .ok effects) (hlt : e.target < s.network.states.size) :
    (∀ q, .visit q ∈ effects → Configuration.Along s.network w p.configuration e q.configuration) ∧
      ∀ d, Configuration.Along s.network w p.configuration e d →
        (∃ q, .visit q ∈ effects ∧ q.configuration = d) ∨
          (e.label? = none ∧ e.target ∈ p.visited) := by
  -- Edges that stay in the rule lead to their target unless it was passed.
  have hpass : ∀ t d, d = { p.configuration with state := t } →
      (∃ q, .visit q ∈ Setting.pass p leaving t ∧ q.configuration = d) ∨ t ∈ p.visited := by
    rintro t d rfl
    exact or_iff_not_imp_right.mpr exists_mem_pass
  have hsome : ¬ (s.network.state? e.target).isNone = true := by
    simp [Network.state?, hlt]
  rw [Setting.follow.eq_def, if_neg hsome] at h
  cases e with
  | epsilon t =>
      cases h
      refine ⟨fun q hq => configuration_of_mem_pass hq ▸ .epsilon t, fun d hd => ?_⟩
      cases hd
      exact (hpass t _ rfl).imp id fun hmem => ⟨rfl, hmem⟩
  | command t k =>
      cases h
      refine ⟨fun q hq => configuration_of_mem_pass hq ▸ .command t k, fun d hd => ?_⟩
      cases hd
      exact (hpass t _ rfl).imp id fun hmem => ⟨rfl, hmem⟩
  | gate t level =>
      cases h
      constructor
      · intro q hq
        split at hq
        · cases hq
        · rename_i hlevel
          exact configuration_of_mem_pass hq ▸ .gate t (Int.not_lt.mp hlevel)
      · intro d hd
        cases hd with
        | gate _ hlevel =>
            have hopen : ¬ level < p.level := Int.not_lt.mpr hlevel
            rw [if_neg hopen]
            exact (hpass t _ rfl).imp id fun hmem => ⟨rfl, hmem⟩
  | call t rule f level =>
      simp only at h
      split at h
      · rename_i hmem
        cases h
        exact ⟨by simp, fun d _ => Or.inr ⟨rfl, hmem⟩⟩
      · rw [call_of_options_none hs] at h
        cases h
        refine ⟨fun q hq => ?_, fun d hd => ?_⟩
        · rw [Effect.visit.inj (List.mem_singleton.mp hq)]
          exact .call t rule f level
        · cases hd
          exact Or.inl ⟨_, List.mem_singleton.mpr rfl, rfl⟩
  | read t label =>
      constructor
      · intro q hq
        obtain ⟨⟨a, ha, hadmits⟩, rfl⟩ := (visit_mem_read hw h).mp hq
        exact .read t ha hadmits
      · intro d hd
        cases hd with
        | read _ ha hadmits =>
            exact Or.inl ⟨_, (visit_mem_read hw h).mpr ⟨⟨_, ha, hadmits⟩, rfl⟩, rfl⟩

end

/-! ### Positions and configurations -/

/-- The edges of a position are those of its configuration. -/
theorem Position.Departs.configuration {n : Network} {p q : Position} {e : Edge} {leaving : Bool}
    (h : p.Departs n e q leaving) : p.configuration.Departs n e q.configuration := by
  cases h with
  | inside hstate hkind he => exact .inside hstate hkind he
  | leaving hstate hkind hcalls he htarget => exact .leaving hstate hkind hcalls he htarget

/-- The edges of a configuration are those of its position. -/
theorem Configuration.Departs.exists_position {n : Network} {p : Position} {c : Configuration}
    {e : Edge} (h : p.configuration.Departs n e c) :
    ∃ q leaving, p.Departs n e q leaving ∧ q.configuration = c := by
  cases h with
  | inside hstate hkind he => exact ⟨p, false, .inside hstate hkind he, rfl⟩
  | leaving hstate hkind hcalls he htarget =>
      exact ⟨_, true, .leaving hstate hkind hcalls he htarget, rfl⟩

/-- What holds of the positions that a machine comes to from `start`. Each state that it remembers
lies within the stretch, and was entered with the calls that are open now and as many tokens
read. -/
structure Position.Traced (s : Setting) (p start : Position) : Prop where
  passed : ∀ t ∈ p.visited, s.network.IsPassed t
  seen : ∀ t ∈ p.visited, ∃ q, start.Reaches s q ∧ q.configuration = ⟨t, p.calls, p.index⟩
  follow : ∀ c ∈ p.calls, ∀ f, c.follow = some f → s.network.IsFollow f

section

variable {s : Setting} {start p q : Position} {w : List TokenType} {effects : List Effect}

/-- Where nothing is remembered there is nothing to show but the calls. -/
theorem Position.Traced.of_visited_eq_nil (hvisited : q.visited = [])
    (hfollow : ∀ c ∈ q.calls, ∀ f, c.follow = some f → s.network.IsFollow f) :
    q.Traced s start where
  passed := by simp [hvisited]
  seen := by simp [hvisited]
  follow := hfollow

/-- The edges that lead on from a position are followed with the states that were passed on the way
to it, and with its calls or those of its caller. -/
theorem Position.Departs.unchanged {n : Network} {e : Edge} {leaving : Bool}
    (h : p.Departs n e q leaving) :
    q.visited = p.visited ∧ ∀ c ∈ q.calls, c ∈ p.calls := by
  cases h with
  | inside _ _ _ => exact ⟨rfl, fun c hc => hc⟩
  | leaving _ _ hcalls _ _ => exact ⟨rfl, fun c hc => hcalls ▸ List.mem_cons_of_mem _ hc⟩

/-- An edge with an effect leads to a state that exists. -/
theorem lt_of_mem_follow {leaving : Bool} {e : Edge} (h : s.follow p leaving e = .ok effects)
    {x : Effect} (hx : x ∈ effects) : e.target < s.network.states.size := by
  by_contra hlt
  have hnone : (s.network.state? e.target).isNone = true := by
    simpa [Network.state?] using hlt
  rw [Setting.follow.eq_def, if_pos hnone] at h
  cases h
  cases hx

/-- Where a traced position leads to is a step of the pushdown system. -/
theorem Position.LeadsOn.step (hs : s.options = .none) (hw : s.stream = ⟨w.toArray⟩)
    (h : p.LeadsOn s q) : p.configuration.Step s.network w q.configuration := by
  obtain ⟨effects, hexplore, hq⟩ := h
  rcases exists_departs_of_mem hexplore hq with ⟨hfinish, -⟩ |
      ⟨e, p', leaving, here, hdeparts, hhere, hq⟩
  · cases hfinish
  · have hlt := lt_of_mem_follow hhere hq
    exact ⟨e, _, hdeparts.configuration, hlt, (visit_mem_follow hs hw hhere hlt).1 q hq⟩

/-- Where a traced position leads to is traced again. -/
theorem Position.Traced.step (hs : s.options = .none) (hp : p.Traced s start)
    (hreaches : start.Reaches s p) (h : p.LeadsOn s q) : q.Traced s start := by
  have hself : start.Reaches s q := .tail hreaches h
  obtain ⟨effects, hexplore, hq⟩ := h
  rcases exists_departs_of_mem hexplore hq with ⟨hfinish, -⟩ |
      ⟨e, p', leaving, here, hdeparts, hhere, hq⟩
  · cases hfinish
  -- The calls are those of the position, or without the innermost one.
  obtain ⟨-, hcalls⟩ := hdeparts.unchanged
  obtain ⟨state, hstate, he⟩ := hdeparts.mem_edges
  have hfollow : ∀ c ∈ p'.calls, ∀ f, c.follow = some f → s.network.IsFollow f :=
    fun c hc => hp.follow c (hcalls c hc)
  rcases effect_of_follow hhere hq with ⟨hpasses, -, -, hvisit⟩ |
      ⟨t, rule, f, level, rfl, -, hcall⟩ | ⟨t, label, rfl, hread⟩
  · obtain rfl := Effect.visit.inj hvisit
    cases hdeparts with
    | leaving => exact .of_visited_eq_nil rfl hfollow
    | inside hstate' hkind he' =>
        -- The new state lies within the stretch, and it is entered right here.
        refine ⟨?_, ?_, hfollow⟩
        · intro t ht
          rcases List.mem_cons.mp ht with rfl | ht
          · exact ⟨_, _, hstate', hkind, e, he', hpasses, rfl⟩
          · exact hp.passed t ht
        · intro t ht
          rcases List.mem_cons.mp ht with rfl | ht
          · exact ⟨_, hself, rfl⟩
          · exact hp.seen t ht
  · rw [call_of_options_none hs] at hcall
    cases hcall
    rw [Effect.visit.inj (List.mem_singleton.mp hq)]
    refine .of_visited_eq_nil rfl ?_
    intro c hc f' hf'
    rcases List.mem_cons.mp hc with rfl | hc
    · cases hf'
      exact ⟨_, state, hstate, t, rule, level, he⟩
    · exact hfollow c hc f' hf'
  · rw [visit_of_read hread hq]
    exact .of_visited_eq_nil rfl hfollow

/-- Every step of the pushdown system from a traced position that is explored leads to a position
that is explored. -/
theorem Position.Traced.exists_of_step (hn : s.network.Apart) (hs : s.options = .none)
    (hw : s.stream = ⟨w.toArray⟩) (hp : p.Traced s start) (hreaches : start.Reaches s p)
    (hexplore : s.explore p = .ok effects) {d : Configuration}
    (hstep : p.configuration.Step s.network w d) :
    ∃ q, start.Reaches s q ∧ q.configuration = d := by
  obtain ⟨e, c', hleaves, hlt, halong⟩ := hstep
  obtain ⟨p', leaving, hdeparts, rfl⟩ := hleaves.exists_position
  obtain ⟨here, hhere, hsub⟩ := follow_of_departs hexplore hdeparts
  rcases (visit_mem_follow hs hw hhere hlt).2 d halong with ⟨q, hq, rfl⟩ | ⟨hlabel, hmem⟩
  · exact ⟨q, .tail hreaches ⟨effects, hexplore, hsub _ hq⟩, rfl⟩
  · -- The edge was refused. This happens within a stretch only, where its target was seen before.
    obtain ⟨state, hstate, he⟩ := hdeparts.mem_edges
    rw [hdeparts.unchanged.1] at hmem
    have hpassed := hp.passed _ hmem
    cases hdeparts with
    | leaving _ _ hcalls _ htarget =>
        have hf : s.network.IsFollow e.target :=
          hp.follow _ (hcalls ▸ List.mem_cons_self) _ (congrArg some htarget.symm)
        exact absurd hpassed (hn.follow_unpassed _ hf)
    | inside =>
        cases halong with
        | epsilon t => exact hp.seen t hmem
        | command t k => exact hp.seen t hmem
        | gate t hlevel => exact hp.seen t hmem
        | call t rule f level =>
            exact absurd hpassed (hn.target_unpassed _ state hstate _ he rfl hlt)
        | read t ha hadmits => cases hlabel

/-! ### Whole traversals -/

/-- All positions that a machine comes to are traced. -/
theorem Position.Traced.of_reaches (hs : s.options = .none) (hstart : start.Traced s start)
    (h : start.Reaches s p) : p.Traced s start := by
  induction h with
  | refl => exact hstart
  | tail hreaches hleads ih => exact ih.step hs hreaches hleads

/-- If all positions that the machine comes to are explored, their configurations are the ones that
the pushdown system comes to. -/
theorem Network.Apart.reflTransGen_step_iff (hn : s.network.Apart) (hs : s.options = .none)
    (hw : s.stream = ⟨w.toArray⟩) (hstart : start.Traced s start)
    (hexplored : ∀ q, start.Reaches s q → ∃ effects, s.explore q = .ok effects)
    (c : Configuration) :
    Relation.ReflTransGen (Configuration.Step s.network w) start.configuration c ↔
      ∃ q, start.Reaches s q ∧ q.configuration = c := by
  constructor
  · intro h
    induction h with
    | refl => exact ⟨start, .refl, rfl⟩
    | tail _ hstep ih =>
        obtain ⟨p, hreaches, rfl⟩ := ih
        obtain ⟨effects, hexplore⟩ := hexplored p hreaches
        exact (hstart.of_reaches hs hreaches).exists_of_step hn hs hw hreaches hexplore hstep
  · rintro ⟨q, hreaches, rfl⟩
    induction hreaches with
    | refl => exact .refl
    | tail _ hleads ih => exact .tail ih (hleads.step hs hw)

/-- The positions that a traversal comes to have the configurations that the pushdown system comes
to. -/
theorem reflTransGen_step_iff (hn : s.network.Segmented) (hs : s.options = .none)
    (hw : s.stream = ⟨w.toArray⟩) (hstart : start.Traced s start)
    (hexplored : ∀ q, start.Reaches s q → ∃ effects, s.explore q = .ok effects)
    (c : Configuration) :
    Relation.ReflTransGen (Configuration.Step s.network w) start.configuration c ↔
      ∃ q, start.Reaches s q ∧ q.configuration = c :=
  hn.apart.reflTransGen_step_iff hs hw hstart hexplored c

/-- What is reported where a position is explored is what its configuration offers. -/
theorem report_mem_explore (hn : s.network.Segmented) (hs : s.options = .none)
    (hw : s.stream = ⟨w.toArray⟩) (hexplore : s.explore p = .ok effects) (c : Candidate) :
    .report c ∈ effects ↔
      ∃ t chain, c = ⟨.token t, [chain]⟩ ∧ p.configuration.Offers s.network w t chain := by
  have hlabels : ∀ {state : State} {t label}, s.network.state? p.state = some state →
      .read t label ∈ state.edges → label.Canonical := fun hstate he =>
    hn.labels _ (Network.mem_of_state? hstate) _ he _ rfl
  constructor
  · intro hc
    rcases exists_departs_of_mem hexplore hc with ⟨hfinish, -⟩ |
        ⟨e, p', leaving, here, hdeparts, hhere, hc⟩
    · cases hfinish
    have hlt := lt_of_mem_follow hhere hc
    obtain ⟨state, hstate, he⟩ := hdeparts.mem_edges
    rcases effect_of_follow hhere hc with ⟨-, -, -, hvisit⟩ | ⟨t, rule, f, level, rfl, -, hcall⟩ |
        ⟨target, label, rfl, hread⟩
    · cases hvisit
    · rw [call_of_options_none hs] at hcall
      cases hcall
      cases List.mem_singleton.mp hc
    · obtain ⟨hindex, t, hadmits, rfl⟩ :=
        (report_mem_read hw (hlabels hstate he) hread).mp hc
      refine ⟨t, _, rfl, ?_, target, label, _, hdeparts.configuration, hlt, hadmits, rfl⟩
      cases hdeparts <;> exact hindex
  · rintro ⟨t, chain, rfl, hindex, target, label, c', hleaves, hlt, hadmits, rfl⟩
    obtain ⟨p', leaving, hdeparts, rfl⟩ := hleaves.exists_position
    obtain ⟨here, hhere, hsub⟩ := follow_of_departs hexplore hdeparts
    obtain ⟨state, hstate, he⟩ := hdeparts.mem_edges
    have hread : s.read p' (.read target label) = .ok here := by
      have hsome : ¬ (s.network.state? (Edge.read target label).target).isNone = true := by
        simp [Network.state?, Edge.target, hlt]
      rw [Setting.follow.eq_def, if_neg hsome] at hhere
      exact hhere
    refine hsub _ ((report_mem_read hw (hlabels hstate he) hread).mpr ⟨?_, t, hadmits, rfl⟩)
    cases hdeparts <;> exact hindex

/-- A position ends the traversal just if its configuration completes the rule. -/
theorem finished_iff_completes (hw : s.stream = ⟨w.toArray⟩) :
    p.Finished s ↔ p.configuration.Completes s.network w := by
  have hcaret : s.stream.caret = w.length := by rw [hw]; exact List.size_toArray
  constructor
  · rintro ⟨hstops, huncalled, hread⟩
    exact ⟨hread.trans hcaret, hstops, huncalled⟩
  · rintro ⟨hread, hstops, huncalled⟩
    exact ⟨hstops, huncalled, hread.trans hcaret.symm⟩

end

/-- A traversal that ends finds what the pushdown system without any memory of passed states finds,
and it reaches the end if the pushdown system does. -/
theorem traverse_eq_unrestricted (n : Network) (hn : n.Segmented) (w : List TokenType)
    (rule : RuleIndex) (limit : Nat) (t : Traversal)
    (h : traverse n ⟨w.toArray⟩ .none limit rule = .ok t) :
    (∀ c, c ∈ t.found ↔ ∃ a chain, c = ⟨.token a, [chain]⟩ ∧
      ∃ d, Configuration.Reachable n w rule d ∧ d.Offers n w a chain) ∧
    (t.reachedEnd = true ↔
      ∃ d, Configuration.Reachable n w rule d ∧ d.Completes n w) := by
  cases hstart : n.start? rule with
  | none =>
      -- A rule that does not exist leads nowhere.
      have hnone : ∀ d, ¬ Configuration.Reachable n w rule d := by
        rintro d ⟨start, hsome, -⟩
        cases hstart.symm.trans hsome
      simp only [traverse, Traversal.run, Setting.ofOptions, hstart] at h
      cases h
      simp [Traversal.empty, hnone]
  | some start =>
      obtain ⟨hexplored, hfound, hend⟩ := Traversal.run_spec rfl hstart h
      have hfirst : (Position.first rule start).Traced
          (.ofOptions n ⟨w.toArray⟩ .none limit) (Position.first rule start) :=
        .of_visited_eq_nil rfl (by simp [Position.first])
      have hreachable : ∀ d, Configuration.Reachable n w rule d ↔ ∃ q,
          (Position.first rule start).Reaches (.ofOptions n ⟨w.toArray⟩ .none limit) q ∧
            q.configuration = d := by
        intro d
        rw [← reflTransGen_step_iff hn rfl rfl hfirst hexplored d]
        simp only [Configuration.Reachable, hstart, Option.some.injEq, exists_eq_left']
        rfl
      constructor
      · intro c
        rw [hfound c]
        constructor
        · rintro ⟨q, effects, hq, hexplore, hc⟩
          obtain ⟨a, chain, rfl, hoffers⟩ := (report_mem_explore hn rfl rfl hexplore c).mp hc
          exact ⟨a, chain, rfl, _, (hreachable _).mpr ⟨q, hq, rfl⟩, hoffers⟩
        · rintro ⟨a, chain, rfl, d, hd, hoffers⟩
          obtain ⟨q, hq, rfl⟩ := (hreachable d).mp hd
          obtain ⟨effects, hexplore⟩ := hexplored q hq
          exact ⟨q, effects, hq, hexplore,
            (report_mem_explore hn rfl rfl hexplore _).mpr ⟨a, chain, rfl, hoffers⟩⟩
      · rw [hend]
        constructor
        · rintro ⟨q, effects, hq, hexplore, hfinish⟩
          exact ⟨_, (hreachable _).mpr ⟨q, hq, rfl⟩,
            (finished_iff_completes rfl).mp ((finish_mem_iff hexplore).mp hfinish)⟩
        · rintro ⟨d, hd, hcompletes⟩
          obtain ⟨q, hq, rfl⟩ := (hreachable d).mp hd
          obtain ⟨effects, hexplore⟩ := hexplored q hq
          exact ⟨q, effects, hq, hexplore,
            (finish_mem_iff hexplore).mpr ((finished_iff_completes rfl).mpr hcompletes)⟩

/-- A network with a cycle that reads nothing, between the states 2 and 3. Behind the gate of the
cycle another rule is called, which reads one of two tokens. The caller may then go round again. -/
def cyclicNetwork : Network where
  states := #[⟨0, 0, .ruleStart, [.epsilon 2]⟩, ⟨1, 0, .ruleStop, []⟩,
    ⟨2, 0, .decision, [.epsilon 3]⟩, ⟨3, 0, .decision, [.epsilon 2, .gate 4 0]⟩,
    ⟨4, 0, .basic, [.call 5 1 7 2]⟩, ⟨5, 1, .ruleStart, [.command 8 0]⟩,
    ⟨6, 1, .ruleStop, [.epsilon 7]⟩, ⟨7, 0, .decision, [.epsilon 1, .epsilon 2]⟩,
    ⟨8, 1, .basic, [.read 6 (.oneOf ⟨[⟨1, 3⟩]⟩)]⟩]
  starts := #[0, 5]
  stops := #[1, 6]
  maxTokenType := 2

/-- The network goes round in circles, but its stretches are kept apart. -/
theorem cyclicNetwork_segmented : cyclicNetwork.Segmented where
  labels := by
    have hset : IntervalSet.Canonical ⟨[⟨1, 3⟩]⟩ := ⟨by simp, by simp⟩
    simp [cyclicNetwork, Edge.label?, Label.Canonical, hset]
  call_start := by decide
  start_unpassed := by decide
  follow_entered := by decide

/-- The traversal of the cyclic network ends, and has found what the pushdown system offers. -/
theorem cyclic_eq_unrestricted :
    traverse cyclicNetwork ⟨#[2]⟩ .none 40 0 =
        .ok ⟨[⟨.token 1, [[0, 1]]⟩, ⟨.token 2, [[0, 1]]⟩], true, .empty⟩ ∧
      (∃ d, Configuration.Reachable cyclicNetwork [2] 0 d ∧
        d.Offers cyclicNetwork [2] 1 [0, 1]) ∧
      ∃ d, Configuration.Reachable cyclicNetwork [2] 0 d ∧ d.Completes cyclicNetwork [2] := by
  have h : traverse cyclicNetwork ⟨#[2]⟩ .none 40 0 =
      .ok ⟨[⟨.token 1, [[0, 1]]⟩, ⟨.token 2, [[0, 1]]⟩], true, .empty⟩ := by cbv
  obtain ⟨hfound, hend⟩ :=
    traverse_eq_unrestricted cyclicNetwork cyclicNetwork_segmented [2] 0 40 _ h
  refine ⟨h, ?_, hend.mp rfl⟩
  obtain ⟨a, chain, heq, hoffers⟩ := (hfound ⟨.token 1, [[0, 1]]⟩).mp (by simp)
  cases heq
  exact hoffers

end Caret
