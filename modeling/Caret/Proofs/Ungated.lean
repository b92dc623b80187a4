import Caret.Proofs.Termination

/-!
# `Caret.Proofs.Ungated`: networks without gates

The operators of a rule are entered through gates, which test the level of the innermost call.
`n.ungated` is the network without these tests: every gate is an edge that just moves on.

Nothing else about the network changes. It is tidy if it was (`Network.Tidy.ungated`), and pieces of
expressions, which hold no gates, are still there (`Network.Wired.ungated`). `Network.Outlines` says
that a network has the pieces of a list of rules, without saying anything about levels, and
`Network.Realizes.outlines_ungated` that a compiled network without its gates is of this kind.
-/

set_option autoImplicit false

namespace Caret

/-! ### Networks without gates -/

/-- The edge without its test of the level. -/
def Edge.ungated : Edge → Edge
  | .gate target _ => .epsilon target
  | e => e

namespace Edge

/-- The edge still leads to the same state. -/
@[simp] theorem target_ungated (e : Edge) : e.ungated.target = e.target := by
  cases e <;> rfl

/-- A gate passes just as an edge does that only moves on, so nothing changes in what is passed. -/
@[simp] theorem passes_ungated (e : Edge) : e.ungated.passes = e.passes := by
  cases e <;> rfl

/-- Only gates are changed, and a gate is no call. -/
@[simp] theorem isCall_ungated (e : Edge) : e.ungated.isCall = e.isCall := by
  cases e <;> rfl

/-- The calls of the two networks are the same, with their levels. What goes is the test at a gate,
not the level that a call hands on. -/
theorem ungated_eq_call {e : Edge} {target rule follow : Nat} {level : Int} :
    e.ungated = .call target rule follow level ↔ e = .call target rule follow level := by
  cases e <;> simp [ungated]

end Edge

/-- The state without tests of the level. -/
def State.ungated (s : State) : State := { s with edges := s.edges.map Edge.ungated }

namespace Network

/-- The network without tests of the level. -/
def ungated (n : Network) : Network := { n with states := n.states.map State.ungated }

variable {n : Network} {a b f : Nat} {edges : List Edge} {r : RuleIndex} {level : Int}

/-- There are as many states, so numbers that are in range stay so. -/
@[simp] theorem size_ungated (n : Network) : n.ungated.states.size = n.states.size := by
  simp [ungated]

/-- States are found under the same numbers. -/
theorem state?_ungated (n : Network) (a : Nat) :
    n.ungated.state? a = (n.state? a).map State.ungated := by
  simp [ungated, state?]

/-- A state of the network without gates comes from a state with them. The proofs below go back to
the original network this way and use what is known there. -/
theorem exists_of_state?_ungated {s : State} (h : n.ungated.state? a = some s) :
    ∃ s', n.state? a = some s' ∧ s = s'.ungated := by
  rw [state?_ungated] at h
  obtain ⟨s', hs', rfl⟩ := Option.map_eq_some_iff.mp h
  exact ⟨s', hs', rfl⟩

/-- The other direction: what is found in the network is found without gates too. -/
theorem state?_ungated_of {s : State} (h : n.state? a = some s) :
    n.ungated.state? a = some s.ungated := by
  rw [state?_ungated, h]
  rfl

/-- A state has the same calls without its gates. -/
theorem call_mem_ungated {s : State} {target rule follow : Nat} :
    .call target rule follow level ∈ s.ungated.edges ↔
      .call target rule follow level ∈ s.edges := by
  simp [State.ungated, List.mem_map, Edge.ungated_eq_call]

/-- Calls go on at the same states. -/
theorem isFollow_ungated : n.ungated.IsFollow f ↔ n.IsFollow f := by
  constructor
  · -- The state with the call is the same, found with or without its gates.
    rintro ⟨a, s, hs, target, rule, level, hmem⟩
    obtain ⟨s', hs', rfl⟩ := exists_of_state?_ungated hs
    exact ⟨a, s', hs', target, rule, level, call_mem_ungated.mp hmem⟩
  · rintro ⟨a, s, hs, target, rule, level, hmem⟩
    exact ⟨a, s.ungated, state?_ungated_of hs, target, rule, level, call_mem_ungated.mpr hmem⟩

/-- What is passed without gates is passed with them: a gate counts as passing whatever its
level. -/
theorem isPassed_of_ungated (h : n.ungated.IsPassed b) : n.IsPassed b := by
  obtain ⟨a, s, hs, hkind, e, he, hpasses, htarget⟩ := h
  obtain ⟨s', hs', rfl⟩ := exists_of_state?_ungated hs
  obtain ⟨e', he', rfl⟩ := List.mem_map.mp he
  exact ⟨a, s', hs', hkind, e', he', by simpa using hpasses, by simpa using htarget⟩

/-- Edges that return are no gates. -/
theorem Tidy.filter_ungated (ht : n.Tidy) {s : State} (hs : n.state? a = some s)
    (hkind : s.kind = .ruleStop) (f : Nat) :
    s.ungated.edges.filter (fun e => e.target = f) = s.edges.filter fun e => e.target = f := by
  -- At a stop state all edges just move on.
  have hedges : s.edges.map Edge.ungated = s.edges := by
    refine (List.map_congr_left fun e he => ?_).trans (List.map_id s.edges)
    obtain ⟨t, rfl, -⟩ := ht.stop_edges a s hs hkind e he
    rfl
  rw [State.ungated, hedges]

/-- A tidy network is tidy without its gates. What being tidy asks for speaks of calls, of stop
states and of targets, and none of these is changed. -/
theorem Tidy.ungated (ht : n.Tidy) : n.ungated.Tidy where
  follow_lt f hf := by
    rw [size_ungated]
    exact ht.follow_lt f (isFollow_ungated.mp hf)
  follow_unpassed f hf hpassed :=
    ht.follow_unpassed f (isFollow_ungated.mp hf) (isPassed_of_ungated hpassed)
  passed_lt b hb := by
    rw [size_ungated]
    exact ht.passed_lt b (isPassed_of_ungated hb)
  start_unpassed rule start hstart hpassed :=
    ht.start_unpassed rule start hstart (isPassed_of_ungated hpassed)
  call_start a s hs target rule follow level hmem := by
    obtain ⟨s', hs', rfl⟩ := exists_of_state?_ungated hs
    exact ht.call_start a s' hs' target rule follow level (call_mem_ungated.mp hmem)
  stops_size := ht.stops_size
  start_lt rule start hstart := by
    rw [size_ungated]
    exact ht.start_lt rule start hstart
  stop_kind rule stop hstop := by
    obtain ⟨s, hs, hkind⟩ := ht.stop_kind rule stop hstop
    exact ⟨s.ungated, state?_ungated_of hs, hkind⟩
  stop_edges a s hs hkind e he := by
    obtain ⟨s', hs', rfl⟩ := exists_of_state?_ungated hs
    obtain ⟨e', he', rfl⟩ := List.mem_map.mp he
    obtain ⟨t, rfl, hlt⟩ := ht.stop_edges a s' hs' hkind e' he'
    exact ⟨t, rfl, by rw [size_ungated]; exact hlt⟩
  stop_injective := ht.stop_injective
  call_returns a s hs target rule follow level hmem := by
    obtain ⟨s', hs', rfl⟩ := exists_of_state?_ungated hs
    -- The stop states and their edges are the same in both networks.
    intro callee stop last hstop hlast
    obtain ⟨last', hlast', rfl⟩ := exists_of_state?_ungated hlast
    obtain ⟨_, hlast'', hkind⟩ := ht.stop_kind callee stop hstop
    cases hlast'.symm.trans hlast''
    rw [ht.filter_ungated hlast' hkind]
    exact ht.call_returns a s' hs' target rule follow level (call_mem_ungated.mp hmem) callee stop
      last' hstop hlast'
  call_alone a s hs e he hcall := by
    obtain ⟨s', hs', rfl⟩ := exists_of_state?_ungated hs
    obtain ⟨e', he', rfl⟩ := List.mem_map.mp he
    rw [Edge.isCall_ungated] at hcall
    rw [State.ungated, ht.call_alone a s' hs' e' he' hcall]
    rfl

/-! ### Pieces without gates -/

/-- A state leads on along the same edges, without their tests. -/
theorem Leads.ungated (h : n.Leads a edges) : n.ungated.Leads a (edges.map Edge.ungated) := by
  obtain ⟨⟨s, hs, hkind, rfl⟩, htargets⟩ := h
  refine ⟨⟨s.ungated, state?_ungated_of hs, hkind, rfl⟩, fun e he => ?_⟩
  obtain ⟨e', he', rfl⟩ := List.mem_map.mp he
  rw [Edge.target_ungated, size_ungated]
  exact htargets e' he'

/-- A call is still a call, and its rule still returns to where it goes on. The latter is about
edges of a stop state, which are no gates in a tidy network. -/
theorem Calls.ungated (ht : n.Tidy) (h : n.Calls a r level f) : n.ungated.Calls a r level f := by
  obtain ⟨start, hstart, hleads, hlt, stop, s, hstop, hs, hkind, hedges⟩ := h
  refine ⟨start, hstart, hleads.ungated, by rw [size_ungated]; exact hlt, stop, s.ungated, hstop,
    state?_ungated_of hs, hkind, ?_⟩
  rw [ht.filter_ungated hs hkind]
  exact hedges

/-- A decision between going in and going past has no gates. -/
theorem Leads.ungated_ways {greedy : Bool} {d i : Nat} (h : n.Leads d (ways greedy i b)) :
    n.ungated.Leads d (ways greedy i b) := by
  -- Both edges of the decision just move on, whichever comes first.
  have hways : (ways greedy i b).map Edge.ungated = ways greedy i b := by
    cases greedy <;> rfl
  rw [← hways]
  exact h.ungated

mutual

/-- There are no gates inside the piece of an expression. -/
theorem Wired.ungated (ht : n.Tidy) {e : Expr Label RuleIndex} {a b : Nat} (h : n.Wired e a b) :
    n.ungated.Wired e a b := by
  -- One case per constructor. The edges that a piece is made of are no gates, so they compute to
  -- themselves.
  cases h with
  | terminal hproper hleads => exact .terminal hproper hleads.ungated
  | rule hcalls => exact .rule (hcalls.ungated ht)
  | empty => exact .empty
  | seqNil => exact .seqNil
  | seqCons h h' => exact .seqCons (h.ungated ht) (h'.ungated ht)
  | alt hsource hd hbranches =>
      exact .alt hsource.ungated hd.ungated (hbranches.ungated ht)
  | optional hsource hways h hlast =>
      exact .optional hsource.ungated hways.ungated_ways (h.ungated ht) hlast.ungated
  | star hsource hways h hlast =>
      exact .star hsource.ungated hways.ungated_ways (h.ungated ht) hlast.ungated
  | plus hsource h hlast hways =>
      exact .plus hsource.ungated (h.ungated ht) hlast.ungated hways.ungated_ways

/-- Nor are there any between the branches of a choice. The edges into the branches are kept as a
list, which is why the statement maps over it. -/
theorem Branches.ungated (ht : n.Tidy) {es : List (Expr Label RuleIndex)} {edges : List Edge}
    {b : Nat} (h : n.Branches es edges b) :
    n.ungated.Branches es (edges.map Edge.ungated) b := by
  cases h with
  | nil => exact .nil
  | cons h hlast hrest => exact .cons (h.ungated ht) hlast.ungated (hrest.ungated ht)

end

/-- Each edge leads to the piece of an operator. Behind it the rule is called at some level, and
then the way leads back to `entry`. -/
def OperatorWays (n : Network) (r : RuleIndex) (entry : Nat)
    (operators : List (Expr Label RuleIndex)) (edges : List Edge) : Prop :=
  ∀ e ∈ edges, e.passes = true ∧ ∃ o ∈ operators, ∃ x level f,
    n.Wired o e.target x ∧ n.Calls x r level f ∧ n.Leads f [.epsilon entry]

/-- The body of a rule is what lies between two states, whatever tests stand in front of operators
and at whatever levels their operands are called. -/
inductive OutlinedBody (n : Network) (r : RuleIndex) :
    Body Label RuleIndex → Nat → Nat → Prop where
  | plain {e : Expr Label RuleIndex} {a b : Nat} :
      n.Wired e a b → OutlinedBody n r (.plain e) a b
  | precedence {primaries operators : List (Expr Label RuleIndex)} {a m entry b : Nat}
      {edges : List Edge} :
      n.Wired (.alt primaries) a m → n.Leads m [.epsilon entry] →
        n.OperatorWays r entry operators edges → n.Leads entry (edges ++ [.epsilon b]) →
          OutlinedBody n r (.precedence primaries operators) a b

/-- The network has the pieces of the rules. Nothing is said about levels. -/
structure Outlines (n : Network) (rules : List (Rule Label RuleIndex)) (u : Universe) : Prop where
  tidy : n.Tidy
  alphabet_eq : n.alphabet = u
  outlined : ∀ r body, rules[r]?.map Rule.body = some body → ∃ start exit stop,
    n.start? r = some start ∧ n.stop? r = some stop ∧ n.OutlinedBody r body start exit ∧
      n.Leads exit [.epsilon stop]

/-- The gates of the operators become ways to them. Which level a gate tests and at which level the
operand is called is forgotten here. -/
theorem Gates.ungated {entry : Nat} {operators : List (Expr Label RuleIndex)} {gates : List Edge}
    (ht : n.Tidy) (h : n.Gates r entry operators level gates) :
    n.ungated.OperatorWays r entry operators (gates.map Edge.ungated) := by
  intro e he
  -- A gate still leads to its operator, and the level of the operand is no longer looked at.
  obtain ⟨gate, hgate, rfl⟩ := List.mem_map.mp he
  obtain ⟨o, ho, i, l, x, f, rfl, hwired, hcalls, hlast⟩ := h.of_mem gate hgate
  exact ⟨rfl, o, ho, x, l + 1, f, hwired.ungated ht, hcalls.ungated ht, hlast.ungated⟩

/-- Without its gates a network still has the pieces of its rules. -/
theorem Realizes.outlines_ungated {rules : List (Rule Label RuleIndex)} {u : Universe}
    (h : n.Realizes rules u) : n.ungated.Outlines rules u where
  tidy := h.tidy.ungated
  alphabet_eq := h.alphabet_eq
  outlined r body hbody := by
    obtain ⟨rule, hrule, rfl⟩ := Option.map_eq_some_iff.mp hbody
    obtain ⟨start, exit, stop, hstart, hstop, hwired, hlast⟩ := h.wired r rule hrule
    refine ⟨start, exit, stop, hstart, hstop, ?_, hlast.ungated⟩
    generalize rule.body = body at hwired ⊢
    cases hwired with
    | plain hwired => exact .plain (hwired.ungated h.tidy)
    | precedence hwired hsource hgates hentry =>
        -- Only here there are gates. The way past the operators is none of them.
        have hentry' := hentry.ungated
        rw [List.map_append] at hentry'
        exact .precedence (hwired.ungated h.tidy) hsource.ungated (hgates.ungated h.tidy) hentry'

end Network

end Caret
