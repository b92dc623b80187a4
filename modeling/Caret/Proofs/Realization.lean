import Caret.Proofs.Wiring

/-!
# `Caret.Proofs.Realization`: the network of a list of rules

`n.Realizes rules u` says that the network `n` is what the rules compile to: every rule has a start
and a stop state, and its body lies between them. `Network.ofRules_realizes` proves it of
`Network.ofRules`. First all rules get their start and stop states, so that a body can call rules
that come later. Then the bodies are filled in one after the other.
-/

set_option autoImplicit false

namespace Caret

namespace Network

/-- The body of a rule is there, between the start and the stop state of the rule. -/
def RuleWired (n : Network) (r : RuleIndex) (body : Body Label RuleIndex) : Prop :=
  ∃ start exit stop, n.start? r = some start ∧ n.stop? r = some stop ∧
    n.WiredBody r body start exit ∧ n.Leads exit [.epsilon stop]

/-- The network is made of the pieces that the rules compile to. -/
structure Realizes (n : Network) (rules : List (Rule Label RuleIndex)) (u : Universe) : Prop where
  tidy : n.Tidy
  alphabet_eq : n.alphabet = u
  count_eq : n.starts.size = rules.length
  wired : ∀ r rule, rules[r]? = some rule → n.RuleWired r rule.body

/-! ### Rules without bodies -/

/-- A network with `k` rules, which have no bodies yet: start and stop states alternate. -/
structure Blank (n : Network) (k : Nat) : Prop where
  size_eq : n.states.size = 2 * k
  starts_size : n.starts.size = k
  stops_size : n.stops.size = k
  start : ∀ r, r < k → n.start? r = some (2 * r)
  stop : ∀ r, r < k → n.stop? r = some (2 * r + 1)
  state : ∀ a, a < 2 * k → ∃ rule,
    n.state? a = some ⟨a, rule, if a % 2 = 0 then .ruleStart else .ruleStop, []⟩

/-- No rules, no states. -/
theorem blank_empty (max : TokenType) : (empty max).Blank 0 where
  size_eq := rfl
  starts_size := rfl
  stops_size := rfl
  start r hr := absurd hr (Nat.not_lt_zero r)
  stop r hr := absurd hr (Nat.not_lt_zero r)
  state a ha := absurd ha (Nat.not_lt_zero a)

/-- A new rule has the next two states, its start and its stop. -/
theorem state?_addRule (n : Network) (a : Nat) : n.addRule.state? a =
    if a = n.states.size + 1 then some ⟨n.states.size + 1, n.ruleCount, .ruleStop, []⟩
    else if a = n.states.size then some ⟨n.states.size, n.ruleCount, .ruleStart, []⟩
    else n.state? a := by
  show ((n.addState n.ruleCount .ruleStart).addState n.ruleCount .ruleStop).state? a = _
  rw [state?_addState, state?_addState, size_addState]

/-- One more rule gets the next two states. -/
theorem Blank.addRule {n : Network} {k : Nat} (h : n.Blank k) : n.addRule.Blank (k + 1) where
  size_eq := by
    show ((n.addState n.ruleCount .ruleStart).addState n.ruleCount .ruleStop).states.size = _
    rw [size_addState, size_addState, h.size_eq]
    omega
  starts_size := by
    show (n.starts.push n.nextId).size = k + 1
    rw [Array.size_push, h.starts_size]
  stops_size := by
    show (n.stops.push (n.nextId + 1)).size = k + 1
    rw [Array.size_push, h.stops_size]
  start r hr := by
    show (n.starts.push n.states.size)[r]? = some (2 * r)
    rw [Array.getElem?_push, h.starts_size, h.size_eq]
    split
    · rename_i heq
      rw [heq]
    · exact h.start r (by omega)
  stop r hr := by
    show (n.stops.push (n.states.size + 1))[r]? = some (2 * r + 1)
    rw [Array.getElem?_push, h.stops_size, h.size_eq]
    split
    · rename_i heq
      rw [heq]
    · exact h.stop r (by omega)
  state a ha := by
    rw [state?_addRule, h.size_eq]
    -- The number is the new stop state, the new start state, or an old one.
    by_cases hstop : a = 2 * k + 1
    · refine ⟨n.ruleCount, ?_⟩
      rw [if_pos hstop, hstop, if_neg (by omega)]
    · rw [if_neg hstop]
      by_cases hstart : a = 2 * k
      · refine ⟨n.ruleCount, ?_⟩
        rw [if_pos hstart, hstart, if_pos (by omega)]
      · rw [if_neg hstart]
        exact h.state a (by omega)

/-- Adding rules one by one. -/
theorem blank_repeat (max : TokenType) (k : Nat) :
    (Nat.repeat Network.addRule k (empty max)).Blank k := by
  induction k with
  | zero => exact blank_empty max
  | succ k ih => exact ih.addRule

/-- The alphabet is the one that the network was made with. -/
theorem maxTokenType_repeat (max : TokenType) (k : Nat) :
    (Nat.repeat Network.addRule k (empty max)).maxTokenType = max := by
  induction k with
  | zero => rfl
  | succ k ih => exact ih

namespace Blank

variable {n : Network} {k : Nat}

/-- Nothing has edges yet. -/
theorem edges_eq_nil (h : n.Blank k) {a : Nat} {s : State} (hs : n.state? a = some s) :
    s.edges = [] := by
  obtain ⟨rule, ha⟩ := h.state a (h.size_eq ▸ state?_lt hs)
  rw [hs] at ha
  rw [Option.some.inj ha]

/-- Nothing is called yet. -/
theorem not_isFollow (h : n.Blank k) (f : Nat) : ¬ n.IsFollow f := by
  rintro ⟨a, s, hs, target, rule, level, hmem⟩
  rw [h.edges_eq_nil hs] at hmem
  cases hmem

/-- Nothing leads anywhere yet. -/
theorem not_isPassed (h : n.Blank k) (b : Nat) : ¬ n.IsPassed b := by
  rintro ⟨a, s, hs, -, e, hmem, -⟩
  rw [h.edges_eq_nil hs] at hmem
  cases hmem

/-- The start state of a rule that exists. -/
theorem start?_eq_some_iff (h : n.Blank k) {r start : Nat} :
    n.start? r = some start ↔ r < k ∧ start = 2 * r := by
  constructor
  · intro hstart
    have hr : r < k := h.starts_size ▸ (Array.getElem?_eq_some_iff.mp hstart).1
    rw [h.start r hr] at hstart
    exact ⟨hr, (Option.some.inj hstart).symm⟩
  · rintro ⟨hr, rfl⟩
    exact h.start r hr

/-- The stop state of a rule that exists. -/
theorem stop?_eq_some_iff (h : n.Blank k) {r stop : Nat} :
    n.stop? r = some stop ↔ r < k ∧ stop = 2 * r + 1 := by
  constructor
  · intro hstop
    have hr : r < k := h.stops_size ▸ (Array.getElem?_eq_some_iff.mp hstop).1
    rw [h.stop r hr] at hstop
    exact ⟨hr, (Option.some.inj hstop).symm⟩
  · rintro ⟨hr, rfl⟩
    exact h.stop r hr

/-- A network without edges is tidy. -/
theorem tidy (h : n.Blank k) : n.Tidy where
  follow_lt f hf := absurd hf (h.not_isFollow f)
  follow_unpassed f hf := absurd hf (h.not_isFollow f)
  passed_lt b hb := absurd hb (h.not_isPassed b)
  start_unpassed _ start _ := h.not_isPassed start
  call_start a s hs target rule follow level hmem := by
    rw [h.edges_eq_nil hs] at hmem
    cases hmem
  stops_size := h.stops_size.trans h.starts_size.symm
  start_lt r start hstart := by
    obtain ⟨hr, rfl⟩ := h.start?_eq_some_iff.mp hstart
    rw [h.size_eq]
    omega
  stop_kind r stop hstop := by
    obtain ⟨hr, rfl⟩ := h.stop?_eq_some_iff.mp hstop
    obtain ⟨rule, hs⟩ := h.state (2 * r + 1) (by omega)
    exact ⟨_, hs, if_neg (by omega)⟩
  stop_edges a s hs hkind e he := by
    rw [h.edges_eq_nil hs] at he
    cases he
  stop_injective r r' stop hr hr' := by
    have heq : 2 * r + 1 = 2 * r' + 1 :=
      (h.stop?_eq_some_iff.mp hr).2.symm.trans (h.stop?_eq_some_iff.mp hr').2
    exact Nat.eq_of_mul_eq_mul_left (by decide) (Nat.succ.inj heq)
  call_returns a s hs target rule follow level hmem := by
    rw [h.edges_eq_nil hs] at hmem
    cases hmem
  call_alone a s hs e he := by
    rw [h.edges_eq_nil hs] at he
    cases he

/-- Start states have no edges yet. -/
theorem has_start (h : n.Blank k) {r : Nat} (hr : r < k) : n.Has (2 * r) [] := by
  obtain ⟨rule, hs⟩ := h.state (2 * r) (by omega)
  refine ⟨_, hs, ?_, rfl⟩
  show (if 2 * r % 2 = 0 then StateKind.ruleStart else StateKind.ruleStop) ≠ .ruleStop
  rw [if_pos (by omega)]
  decide

/-- A body may lead to the stop state of its rule. -/
theorem inner_stop (h : n.Blank k) {r : Nat} (hr : r < k) : n.Inner (2 * r + 1) where
  lt := by
    rw [h.size_eq]
    omega
  not_follow := h.not_isFollow _
  not_start r' hstart := by
    obtain ⟨-, heq⟩ := h.start?_eq_some_iff.mp hstart
    omega

end Blank

/-! ### Filling in bodies -/

/-- A body touches the start state of its rule. It lasts if nothing of it is touched later. -/
theorem addBody_spec {n : Network} {u : Universe} {count r start stop : Nat}
    {body : Body Label RuleIndex} (hn : n.Ready u count) (hr : r < count)
    (hstart : n.start? r = some start) (hstop : n.stop? r = some stop) (hhas : n.Has start [])
    (hinner : n.Inner stop) (hfits : body.Fits (Label.Proper u) (· < count)) :
    n.Grows (n.addBody r body) (fun x => x = start) ∧
      ∀ N touched, (n.addBody r body).Grows N touched →
        (∀ x, x = start ∨ n.states.size ≤ x → ¬ touched x) → N.RuleWired r body := by
  have hpiece := body.compile_piece r hr hn hhas hfits
  have hlt := hhas.lt
  have hexit := hpiece.exit_eq_or_le
  have hadd : n.addBody r body = (body.compile r ⟨n, start⟩).network.addEdge
      (body.compile r ⟨n, start⟩).exit (.epsilon stop) := by
    simp only [addBody, hstart, hstop]
  -- The piece ends at an exit without edges, and one more edge leads from there to the stop state.
  have hinner' := hpiece.grows.inner hinner
  have hedge := grows_addEdge (e := .epsilon stop) rfl hpiece.exit_has (by simp) fun _ => hinner'
  have hlast := has_addEdge (e := .epsilon stop) rfl hpiece.exit_has
  have hall := hpiece.grows.trans hedge
  rw [hadd]
  constructor
  · refine hall.mono ?_
    intro x hx htouched
    omega
  · intro N touched hN hkeep
    have hall' := hall.trans hN
    refine ⟨start, (body.compile r ⟨n, start⟩).exit, stop, ?_, ?_, ?_, ?_⟩
    · rw [start?, hall'.starts_eq]
      exact hstart
    · rw [stop?, hall'.stops_eq]
      exact hstop
    · refine hpiece.lasts N _ (hedge.trans hN) ?_
      rintro x hx hxlt (h | h)
      · exact h
      · exact absurd h (hkeep x hx)
    · refine hN.leads_epsilon hlast (hkeep _ ?_) (hedge.inner hinner').lt
      omega

/-- Bodies touch the start states of their rules, and all of them are there in the end. -/
theorem addBodies_spec {u : Universe} {count : Nat} (rules : List (Rule Label RuleIndex)) :
    ∀ {n : Network} {k : Nat}, n.Ready u count → k + rules.length ≤ count →
      (∀ r, r < count → n.start? r = some (2 * r)) → (∀ r, k ≤ r → r < count → n.Has (2 * r) []) →
      (∀ r, r < count → n.stop? r = some (2 * r + 1) ∧ n.Inner (2 * r + 1)) →
      (∀ rule ∈ rules, rule.body.Fits (Label.Proper u) (· < count)) →
        n.Grows (n.addBodies k rules) (fun x => ∃ r, k ≤ r ∧ r < count ∧ x = 2 * r) ∧
          ∀ i rule, rules[i]? = some rule → (n.addBodies k rules).RuleWired (k + i) rule.body := by
  induction rules with
  | nil =>
      intro n k hn hk hstarts hhas hstops hfits
      exact ⟨(Grows.refl n).mono fun _ _ h => h.elim, by simp⟩
  | cons first rest ih =>
      intro n k hn hk hstarts hhas hstops hfits
      rw [List.length_cons] at hk
      have hkc : k < count := by omega
      have hstartLt : ∀ r, r < count → 2 * r < n.states.size := by
        intro r hr
        exact hn.tidy.start_lt r (2 * r) (hstarts r hr)
      obtain ⟨hgrows, hwired⟩ := addBody_spec hn hkc (hstarts k hkc) (hstops k hkc).1
        (hhas k (Nat.le_refl k) hkc) (hstops k hkc).2 (hfits first (by simp))
      -- The other rules are as they were, so that the induction goes on.
      obtain ⟨hrest, hwired'⟩ := ih (k := k + 1) (hgrows.ready hn) (by omega)
        (fun r hr => by
          rw [start?, hgrows.starts_eq]
          exact hstarts r hr)
        (fun r hkr hr => hgrows.has (hhas r (by omega) hr) (by omega))
        (fun r hr => by
          refine ⟨?_, hgrows.inner (hstops r hr).2⟩
          rw [stop?, hgrows.stops_eq]
          exact (hstops r hr).1)
        (fun rule hrule => hfits rule (List.mem_cons_of_mem _ hrule))
      constructor
      · refine (hgrows.trans hrest).mono ?_
        rintro x hx (h | ⟨r, hkr, hr, h⟩)
        · exact ⟨k, Nat.le_refl k, hkc, h⟩
        · exact ⟨r, by omega, hr, h⟩
      · intro i rule hrule
        cases i with
        | zero =>
            rw [List.getElem?_cons_zero] at hrule
            cases hrule
            -- Later bodies touch start states of later rules, which are none of this body.
            refine hwired _ _ hrest ?_
            rintro x hx ⟨r, hkr, hr, rfl⟩
            have hlt := hstartLt r hr
            omega
        | succ i =>
            rw [List.getElem?_cons_succ] at hrule
            have hthere := hwired' i rule hrule
            rw [show k + 1 + i = k + (i + 1) by omega] at hthere
            exact hthere

/-- The network of a list of rules is made of the pieces that the rules compile to. -/
theorem ofRules_realizes {rules : List (Rule Label RuleIndex)} {max : TokenType}
    (hfits : ∀ rule ∈ rules,
      rule.body.Fits (Label.Proper ⟨firstTokenType, max⟩) (· < rules.length)) :
    (ofRules rules max).Realizes rules ⟨firstTokenType, max⟩ := by
  have hblank := blank_repeat max rules.length
  have hready : (Nat.repeat Network.addRule rules.length (empty max)).Ready
      ⟨firstTokenType, max⟩ rules.length :=
    ⟨hblank.tidy, by rw [alphabet, maxTokenType_repeat], hblank.starts_size⟩
  -- All rules have their states before the first body is filled in.
  obtain ⟨hgrows, hwired⟩ := addBodies_spec rules (k := 0) hready (by omega) hblank.start
    (fun r _ hr => hblank.has_start hr)
    (fun r hr => ⟨hblank.stop r hr, hblank.inner_stop hr⟩) hfits
  have hdone := hgrows.ready hready
  refine ⟨hdone.tidy, hdone.alphabet_eq, hdone.count_eq, ?_⟩
  intro r rule hrule
  have hthere := hwired r rule hrule
  rw [Nat.zero_add] at hthere
  exact hthere

end Network

end Caret
