import Mathlib
import Caret.Grammar.Compile

/-!
# `Caret.Proofs.Growth`: what stays as it is while a network grows

A network is compiled by adding states and edges. `n.Grows m touched` says what the steps from `n`
to `m` have left alone: states keep their edges, unless they are touched or are stop states, and a
stop state only gets edges that return to states added since. A grown network also stays tidy:
an edge within a rule never leads to the start of a rule or to a state where a caller goes on, and
each call has a state of its own.

Each step of the construction has one lemma here, and `Grows.trans` puts steps together.
-/

set_option autoImplicit false

namespace Caret

/-- Whether the edge reads nothing and stays within its rule. -/
def Edge.passes : Edge → Bool
  | .epsilon _ => true
  | .gate _ _ => true
  | .command _ _ => true
  | .call _ _ _ _ => false
  | .read _ _ => false

/-- Whether the edge calls a rule. -/
def Edge.isCall : Edge → Bool
  | .call _ _ _ _ => true
  | _ => false

namespace Network

/-! ### States and edges -/

/-- A state that is no stop state has exactly these edges. -/
def Has (n : Network) (a : Nat) (edges : List Edge) : Prop :=
  ∃ s, n.state? a = some s ∧ s.kind ≠ .ruleStop ∧ s.edges = edges

/-- A caller goes on at this state. -/
def IsFollow (n : Network) (f : Nat) : Prop :=
  ∃ a s, n.state? a = some s ∧ ∃ target rule level, Edge.call target rule f level ∈ s.edges

/-- An edge within a rule leads to this state. -/
def IsPassed (n : Network) (b : Nat) : Prop :=
  ∃ a s, n.state? a = some s ∧ s.kind ≠ .ruleStop ∧ ∃ e ∈ s.edges, e.passes = true ∧ e.target = b

/-- The stop state of a rule has one edge back to the state `f`. -/
def Returns (n : Network) (rule : RuleIndex) (f : Nat) : Prop :=
  f < n.states.size ∧ ∃ stop s, n.stop? rule = some stop ∧ n.state? stop = some s ∧
    s.kind = .ruleStop ∧ s.edges.filter (fun e => e.target = f) = [.epsilon f]

/-- Of all stop states only that of the rule leads to the state `f`, by one edge. -/
def ReturnsOnly (n : Network) (rule : RuleIndex) (f : Nat) : Prop :=
  ∀ callee stop s, n.stop? callee = some stop → n.state? stop = some s →
    s.edges.filter (fun e => e.target = f) = if callee = rule then [.epsilon f] else []

/-- An edge within a rule may lead to this state: it is not the start of a rule, and no caller goes
on there. -/
structure Inner (n : Network) (b : Nat) : Prop where
  lt : b < n.states.size
  not_follow : ¬ n.IsFollow b
  not_start : ∀ rule, n.start? rule ≠ some b

/-- The start of a rule and the states where callers go on are not entered from within a rule. Stop
states have no edges but those that return, and to the follow state of a call only the stop state of
the called rule returns. A state that calls a rule does nothing else. -/
structure Tidy (n : Network) : Prop where
  follow_lt : ∀ f : Nat, n.IsFollow f → f < n.states.size
  follow_unpassed : ∀ f, n.IsFollow f → ¬ n.IsPassed f
  passed_lt : ∀ b : Nat, n.IsPassed b → b < n.states.size
  start_unpassed : ∀ rule start, n.start? rule = some start → ¬ n.IsPassed start
  call_start : ∀ a s, n.state? a = some s → ∀ target rule follow level,
    Edge.call target rule follow level ∈ s.edges → n.start? rule = some target
  stops_size : n.stops.size = n.starts.size
  start_lt : ∀ (rule start : Nat), n.start? rule = some start → start < n.states.size
  stop_kind : ∀ rule stop, n.stop? rule = some stop →
    ∃ s, n.state? stop = some s ∧ s.kind = .ruleStop
  stop_edges : ∀ a s, n.state? a = some s → s.kind = .ruleStop →
    ∀ e ∈ s.edges, ∃ t : Nat, e = .epsilon t ∧ t < n.states.size
  stop_injective : ∀ rule rule' stop, n.stop? rule = some stop → n.stop? rule' = some stop →
    rule = rule'
  call_returns : ∀ a s, n.state? a = some s → ∀ target rule follow level,
    Edge.call target rule follow level ∈ s.edges → n.ReturnsOnly rule follow
  call_alone : ∀ a s, n.state? a = some s → ∀ e ∈ s.edges, e.isCall = true → s.edges = [e]

/-- The network `m` comes from `n` by adding states and edges. Of the states of `n` that are no stop
states, only the touched ones may have got edges. -/
structure Grows (n m : Network) (touched : Nat → Prop) : Prop where
  size_le : n.states.size ≤ m.states.size
  starts_eq : m.starts = n.starts
  stops_eq : m.stops = n.stops
  max_eq : m.maxTokenType = n.maxTokenType
  frame : ∀ a s, n.state? a = some s → s.kind ≠ .ruleStop → ¬ touched a → m.state? a = some s
  stop : ∀ a s, n.state? a = some s → s.kind = .ruleStop →
    ∃ new, m.state? a = some { s with edges := s.edges ++ new } ∧
      ∀ e ∈ new, ∃ t : Nat, e = .epsilon t ∧ n.states.size ≤ t ∧ t < m.states.size
  follow : ∀ f : Nat, m.IsFollow f → n.IsFollow f ∨ n.states.size ≤ f
  tidy : n.Tidy → m.Tidy

/-- Only numbers below the number of states have a state. -/
theorem state?_lt {n : Network} {a : Nat} {s : State} (h : n.state? a = some s) :
    a < n.states.size := (Array.getElem?_eq_some_iff.mp h).1

/-- A state that has edges is there. -/
theorem Has.lt {n : Network} {a : Nat} {edges : List Edge} (h : n.Has a edges) :
    a < n.states.size := by
  obtain ⟨s, hs, -⟩ := h
  exact state?_lt hs

/-- A stop state does not lead to states that are not there. -/
theorem Tidy.filter_stop_eq_nil {n : Network} (ht : n.Tidy) {rule : RuleIndex} {stop f : Nat}
    {s : State} (hstop : n.stop? rule = some stop) (hs : n.state? stop = some s)
    (hf : n.states.size ≤ f) : s.edges.filter (fun e => e.target = f) = [] := by
  obtain ⟨s', hs', hkind⟩ := ht.stop_kind rule stop hstop
  cases hs.symm.trans hs'
  rw [List.filter_eq_nil_iff]
  intro e he hsame
  obtain ⟨t, rfl, hlt⟩ := ht.stop_edges stop s hs hkind e he
  have hsame' : t = f := of_decide_eq_true hsame
  omega

/-! ### Putting growth together -/

namespace Grows

variable {n m k : Network} {touched touched' : Nat → Prop}

/-- Nothing was added. -/
theorem refl (n : Network) : n.Grows n fun _ => False where
  size_le := Nat.le_refl _
  starts_eq := rfl
  stops_eq := rfl
  max_eq := rfl
  frame _ _ h _ _ := h
  stop a s h _ := ⟨[], by rw [h, List.append_nil], by simp⟩
  follow _ h := Or.inl h
  tidy h := h

/-- Two steps together touch what either of them touches. -/
theorem trans (h : n.Grows m touched) (h' : m.Grows k touched') :
    n.Grows k fun a => touched a ∨ touched' a where
  size_le := Nat.le_trans h.size_le h'.size_le
  starts_eq := h'.starts_eq.trans h.starts_eq
  stops_eq := h'.stops_eq.trans h.stops_eq
  max_eq := h'.max_eq.trans h.max_eq
  frame a s hs hkind hnot :=
    h'.frame a s (h.frame a s hs hkind fun ht => hnot (Or.inl ht)) hkind fun ht =>
      hnot (Or.inr ht)
  stop a s hs hkind := by
    -- A stop state gets the edges of both steps. Those of the second step lead to states that are
    -- new to `m`, so they are new to `n`.
    obtain ⟨new, hm, hnew⟩ := h.stop a s hs hkind
    obtain ⟨new', hk, hnew'⟩ := h'.stop a _ hm hkind
    refine ⟨new ++ new', by rw [hk, List.append_assoc], fun e he => ?_⟩
    have hle := h.size_le
    have hle' := h'.size_le
    rcases List.mem_append.mp he with he | he
    · obtain ⟨t, rfl, hlow, hhigh⟩ := hnew e he
      exact ⟨t, rfl, hlow, by omega⟩
    · obtain ⟨t, rfl, hlow, hhigh⟩ := hnew' e he
      exact ⟨t, rfl, by omega, hhigh⟩
  follow f hf := by
    have hle := h.size_le
    rcases h'.follow f hf with hf | hf
    · exact h.follow f hf
    · exact Or.inr (by omega)
  tidy ht := h'.tidy (h.tidy ht)

/-- States that were not there before need not count as touched. -/
theorem mono (h : n.Grows m touched) (hsub : ∀ a, a < n.states.size → touched a → touched' a) :
    n.Grows m touched' :=
  { h with frame := fun a s hs hkind hnot =>
      h.frame a s hs hkind fun ht => hnot (hsub a (state?_lt hs) ht) }

/-- The alphabet is fixed before the network grows. -/
theorem alphabet_eq (h : n.Grows m touched) : m.alphabet = n.alphabet := by
  rw [alphabet, alphabet, h.max_eq]

/-- A state that is not touched keeps its edges. -/
theorem has (h : n.Grows m touched) {a : Nat} {edges : List Edge} (ha : n.Has a edges)
    (hnot : ¬ touched a) : m.Has a edges := by
  obtain ⟨s, hs, hkind, hedges⟩ := ha
  exact ⟨s, h.frame a s hs hkind hnot, hkind, hedges⟩

/-- The edges that a stop state gets later lead to other states than the ones it returns to now. -/
theorem returns (h : n.Grows m touched) {rule : RuleIndex} {f : Nat} (hf : n.Returns rule f) :
    m.Returns rule f := by
  obtain ⟨hlt, stop, s, hstop, hs, hkind, hfilter⟩ := hf
  obtain ⟨new, hm, hnew⟩ := h.stop stop s hs hkind
  refine ⟨Nat.lt_of_lt_of_le hlt h.size_le, stop, _, ?_, hm, hkind, ?_⟩
  · rw [stop?, h.stops_eq]
    exact hstop
  · have hnone : new.filter (fun e => e.target = f) = [] := by
      rw [List.filter_eq_nil_iff]
      intro e he
      obtain ⟨t, rfl, hlow, -⟩ := hnew e he
      intro hsame
      have hsame' : t = f := of_decide_eq_true hsame
      omega
    rw [List.filter_append, hfilter, hnone, List.append_nil]

/-- A caller never comes to go on at a state that was there before the call. -/
theorem inner (h : n.Grows m touched) {b : Nat} (hb : n.Inner b) : m.Inner b where
  lt := Nat.lt_of_lt_of_le hb.lt h.size_le
  not_follow hm := by
    have hlt := hb.lt
    rcases h.follow b hm with hn | hle
    · exact hb.not_follow hn
    · omega
  not_start rule hstart := by
    rw [start?, h.starts_eq] at hstart
    exact hb.not_start rule hstart

end Grows

/-! ### Adding a state -/

section AddState

variable (n : Network) (rule : RuleIndex) (kind : StateKind)

/-- There is one state more. -/
@[simp] theorem size_addState : (n.addState rule kind).states.size = n.states.size + 1 := by
  simp [addState]

/-- The new state is the last one, without edges. -/
theorem state?_addState (a : Nat) : (n.addState rule kind).state? a =
    if a = n.states.size then some ⟨n.states.size, rule, kind, []⟩ else n.state? a := by
  simp [addState, state?, nextId, Array.getElem?_push]

/-- So it has no edges. -/
theorem has_addState (hkind : kind ≠ .ruleStop) :
    (n.addState rule kind).Has n.states.size [] :=
  ⟨_, by rw [state?_addState, if_pos rfl], hkind, rfl⟩

/-- Without edges it makes no caller go on anywhere. -/
theorem isFollow_addState (f : Nat) : (n.addState rule kind).IsFollow f ↔ n.IsFollow f := by
  constructor
  · rintro ⟨a, s, hs, target, callee, level, hmem⟩
    rw [state?_addState] at hs
    split at hs
    · cases hs
      cases hmem
    · exact ⟨a, s, hs, target, callee, level, hmem⟩
  · rintro ⟨a, s, hs, hcall⟩
    refine ⟨a, s, ?_, hcall⟩
    rw [state?_addState, if_neg (Nat.ne_of_lt (state?_lt hs)), hs]

/-- Nor does it lead anywhere. -/
theorem isPassed_addState (b : Nat) : (n.addState rule kind).IsPassed b ↔ n.IsPassed b := by
  constructor
  · rintro ⟨a, s, hs, hkind, e, hmem, he⟩
    rw [state?_addState] at hs
    split at hs
    · cases hs
      cases hmem
    · exact ⟨a, s, hs, hkind, e, hmem, he⟩
  · rintro ⟨a, s, hs, hedge⟩
    refine ⟨a, s, ?_, hedge⟩
    rw [state?_addState, if_neg (Nat.ne_of_lt (state?_lt hs)), hs]

/-- A new state leaves all the others as they are. -/
theorem grows_addState (hkind : kind ≠ .ruleStop) :
    n.Grows (n.addState rule kind) fun _ => False where
  size_le := by simp
  starts_eq := rfl
  stops_eq := rfl
  max_eq := rfl
  frame a s hs _ _ := by rw [state?_addState, if_neg (Nat.ne_of_lt (state?_lt hs)), hs]
  stop a s hs _ := by
    refine ⟨[], ?_, by simp⟩
    rw [state?_addState, if_neg (Nat.ne_of_lt (state?_lt hs)), hs, List.append_nil]
  follow f hf := Or.inl ((isFollow_addState n rule kind f).mp hf)
  tidy ht := {
    follow_lt := fun f hf => by
      have := ht.follow_lt f ((isFollow_addState n rule kind f).mp hf)
      rw [size_addState]
      omega
    follow_unpassed := fun f hf hp =>
      ht.follow_unpassed f ((isFollow_addState n rule kind f).mp hf)
        ((isPassed_addState n rule kind f).mp hp)
    passed_lt := fun b hb => by
      have := ht.passed_lt b ((isPassed_addState n rule kind b).mp hb)
      rw [size_addState]
      omega
    start_unpassed := fun r start hstart hp =>
      ht.start_unpassed r start hstart ((isPassed_addState n rule kind start).mp hp)
    call_start := fun a s hs target r follow level hmem => by
      rw [state?_addState] at hs
      split at hs
      · cases hs
        cases hmem
      · exact ht.call_start a s hs target r follow level hmem
    stops_size := ht.stops_size
    start_lt := fun r start hstart => by
      have := ht.start_lt r start hstart
      rw [size_addState]
      omega
    stop_kind := fun r stop hstop => by
      obtain ⟨s, hs, hk⟩ := ht.stop_kind r stop hstop
      refine ⟨s, ?_, hk⟩
      rw [state?_addState, if_neg (Nat.ne_of_lt (state?_lt hs)), hs]
    stop_edges := fun a s hs hk e he => by
      rw [state?_addState] at hs
      split at hs
      · cases hs
        exact absurd hk hkind
      · obtain ⟨t, rfl, hlt⟩ := ht.stop_edges a s hs hk e he
        exact ⟨t, rfl, by rw [size_addState]; omega⟩
    stop_injective := ht.stop_injective
    call_returns := fun a s hs target r follow level hmem callee stop s' hstop hs' => by
      obtain ⟨s'', hs'', -⟩ := ht.stop_kind callee stop hstop
      rw [state?_addState, if_neg (Nat.ne_of_lt (state?_lt hs''))] at hs'
      rw [state?_addState] at hs
      split at hs
      · cases hs
        cases hmem
      · exact ht.call_returns a s hs target r follow level hmem callee stop s' hstop hs'
    call_alone := fun a s hs e he hcall => by
      rw [state?_addState] at hs
      split at hs
      · cases hs
        cases he
      · exact ht.call_alone a s hs e he hcall }

/-- Nothing leads to a new state yet, so an edge within a rule may. -/
theorem inner_addState (ht : n.Tidy) : (n.addState rule kind).Inner n.states.size where
  lt := by simp
  not_follow hf := by
    have := ht.follow_lt _ ((isFollow_addState n rule kind _).mp hf)
    omega
  not_start r hstart := by
    have := ht.start_lt r _ hstart
    omega

end AddState

/-! ### Adding an edge -/

section Attach

variable (n : Network) (source : Nat) (e : Edge)

/-- An edge adds no state. -/
@[simp] theorem size_attach : (n.attach source e).states.size = n.states.size := by
  simp [attach]

/-- Only the source of the edge changes. -/
theorem state?_attach (a : Nat) : (n.attach source e).state? a =
    if source = a then (n.state? a).map fun s => { s with edges := s.edges ++ [e] }
    else n.state? a := by
  simp only [attach, state?, Array.getElem?_modify]

/-- A state after an edge was attached comes from a state of the same kind, whose edges it has. -/
theorem exists_of_state?_attach {a : Nat} {s : State} (h : (n.attach source e).state? a = some s) :
    ∃ s', n.state? a = some s' ∧ s.kind = s'.kind ∧
      ∀ e' ∈ s.edges, e' ∈ s'.edges ∨ (e' = e ∧ source = a) := by
  rw [state?_attach] at h
  split at h
  · rename_i heq
    obtain ⟨s', hs', rfl⟩ := Option.map_eq_some_iff.mp h
    refine ⟨s', hs', rfl, fun e' he' => ?_⟩
    rcases List.mem_append.mp he' with he' | he'
    · exact Or.inl he'
    · exact Or.inr ⟨List.mem_singleton.mp he', heq⟩
  · exact ⟨s, h, rfl, fun e' he' => Or.inl he'⟩

/-- Only a call makes a caller go on at another state. -/
theorem isFollow_of_attach {f : Nat} (h : (n.attach source e).IsFollow f) :
    n.IsFollow f ∨ ∃ target rule level, e = .call target rule f level := by
  obtain ⟨a, s, hs, target, rule, level, hmem⟩ := h
  obtain ⟨s', hs', -, hedges⟩ := exists_of_state?_attach n source e hs
  rcases hedges _ hmem with hold | ⟨hnew, -⟩
  · exact Or.inl ⟨a, s', hs', target, rule, level, hold⟩
  · exact Or.inr ⟨target, rule, level, hnew.symm⟩

/-- Only an edge within a rule enters another state. -/
theorem isPassed_of_attach {b : Nat} (h : (n.attach source e).IsPassed b) :
    n.IsPassed b ∨ (e.passes = true ∧ e.target = b ∧
      ∃ s, n.state? source = some s ∧ s.kind ≠ .ruleStop) := by
  obtain ⟨a, s, hs, hkind, e', hmem, hpasses, htarget⟩ := h
  obtain ⟨s', hs', hkind', hedges⟩ := exists_of_state?_attach n source e hs
  rw [hkind'] at hkind
  rcases hedges _ hmem with hold | ⟨rfl, rfl⟩
  · exact Or.inl ⟨a, s', hs', hkind, e', hold, hpasses, htarget⟩
  · exact Or.inr ⟨hpasses, htarget, s', hs', hkind⟩

variable {n source e}

/-- An edge makes no difference to where stop states return to, unless it is the edge of a stop
state to the state in question. -/
theorem returnsOnly_attach {rule : RuleIndex} {f : Nat} (h : n.ReturnsOnly rule f)
    (he : ∀ callee, n.stop? callee = some source → e.target ≠ f) :
    (n.attach source e).ReturnsOnly rule f := by
  intro callee stop s hstop hs
  rw [state?_attach] at hs
  split at hs
  · rename_i heq
    obtain ⟨s', hs', rfl⟩ := Option.map_eq_some_iff.mp hs
    have hne : e.target ≠ f := he callee (heq ▸ hstop)
    rw [← h callee stop s' hstop hs', List.filter_append]
    simp [hne]
  · exact h callee stop s hstop hs

/-- An edge keeps a network tidy on these terms: a caller goes on at a state that no edge within a
rule enters and to which the stop state of the called rule returns, an edge within a rule enters no
such state and no start of a rule, the edge of a stop state returns to a new state, and a call
stands alone. -/
theorem tidy_attach (ht : n.Tidy)
    (hcall : ∀ target rule (f : Nat) level, e = .call target rule f level →
      f < n.states.size ∧ ¬ n.IsPassed f ∧ n.start? rule = some target ∧ n.ReturnsOnly rule f)
    (hpass : ∀ s, n.state? source = some s → s.kind ≠ .ruleStop → e.passes = true →
      n.Inner e.target)
    (hstop : ∀ s, n.state? source = some s → s.kind = .ruleStop →
      ∃ t : Nat, e = .epsilon t ∧ t < n.states.size ∧ ¬ n.IsFollow t)
    (halone : ∀ s, n.state? source = some s →
      (∀ e' ∈ s.edges, e'.isCall = false) ∧ (e.isCall = true → s.edges = [])) :
    (n.attach source e).Tidy where
  follow_lt f hf := by
    rw [size_attach]
    rcases isFollow_of_attach n source e hf with hf | ⟨target, rule, level, he⟩
    · exact ht.follow_lt f hf
    · exact (hcall _ _ _ _ he).1
  follow_unpassed f hf hp := by
    rcases isFollow_of_attach n source e hf with hf | ⟨target, rule, level, rfl⟩
    · rcases isPassed_of_attach n source e hp with hp | ⟨hpasses, rfl, s, hs, hkind⟩
      · exact ht.follow_unpassed f hf hp
      · exact (hpass s hs hkind hpasses).not_follow hf
    · rcases isPassed_of_attach n source _ hp with hp | ⟨hpasses, -⟩
      · exact (hcall _ _ _ _ rfl).2.1 hp
      · cases hpasses
  passed_lt b hb := by
    rw [size_attach]
    rcases isPassed_of_attach n source e hb with hb | ⟨hpasses, rfl, s, hs, hkind⟩
    · exact ht.passed_lt b hb
    · exact (hpass s hs hkind hpasses).lt
  start_unpassed rule start hstart hp := by
    rcases isPassed_of_attach n source e hp with hp | ⟨hpasses, rfl, s, hs, hkind⟩
    · exact ht.start_unpassed rule start hstart hp
    · exact (hpass s hs hkind hpasses).not_start rule hstart
  call_start a s hs target rule follow level hmem := by
    obtain ⟨s', hs', -, hedges⟩ := exists_of_state?_attach n source e hs
    rcases hedges _ hmem with hold | ⟨hnew, -⟩
    · exact ht.call_start a s' hs' target rule follow level hold
    · exact (hcall _ _ _ _ hnew.symm).2.2.1
  stops_size := ht.stops_size
  start_lt rule start hstart := by
    rw [size_attach]
    exact ht.start_lt rule start hstart
  stop_kind rule stop hrule := by
    obtain ⟨s, hs, hkind⟩ := ht.stop_kind rule stop hrule
    rw [state?_attach]
    split
    · exact ⟨{ s with edges := s.edges ++ [e] }, by rw [hs]; rfl, hkind⟩
    · exact ⟨s, hs, hkind⟩
  stop_edges a s hs hkind e' he' := by
    obtain ⟨s', hs', hkind', hedges⟩ := exists_of_state?_attach n source e hs
    rw [size_attach]
    rcases hedges e' he' with hold | ⟨rfl, rfl⟩
    · exact ht.stop_edges a s' hs' (hkind' ▸ hkind) e' hold
    · obtain ⟨t, het, hlt, -⟩ := hstop s' hs' (hkind' ▸ hkind)
      exact ⟨t, het, hlt⟩
  stop_injective := ht.stop_injective
  call_returns a s hs target rule follow level hmem := by
    obtain ⟨s', hs', -, hedges⟩ := exists_of_state?_attach n source e hs
    rcases hedges _ hmem with hold | ⟨rfl, -⟩
    · refine returnsOnly_attach (ht.call_returns a s' hs' target rule follow level hold) ?_
      intro callee hsource
      obtain ⟨last, hlast, hkind⟩ := ht.stop_kind callee source hsource
      obtain ⟨t, rfl, -, hnot⟩ := hstop last hlast hkind
      -- The edge of a stop state leads to a state where no caller goes on yet.
      rintro rfl
      exact hnot ⟨a, s', hs', target, rule, level, hold⟩
    · -- A call does not leave a stop state.
      refine returnsOnly_attach (hcall _ _ _ _ rfl).2.2.2 ?_
      intro callee hsource
      obtain ⟨last, hlast, hkind⟩ := ht.stop_kind callee source hsource
      obtain ⟨t, het, -⟩ := hstop last hlast hkind
      cases het
  call_alone a s hs e' he' hcall' := by
    rw [state?_attach] at hs
    split at hs
    · rename_i heq
      obtain ⟨s', hs', rfl⟩ := Option.map_eq_some_iff.mp hs
      obtain ⟨hold, hnew⟩ := halone s' (heq ▸ hs')
      rcases List.mem_append.mp he' with he' | he'
      · rw [hold e' he'] at hcall'
        cases hcall'
      · obtain rfl := List.mem_singleton.mp he'
        show s'.edges ++ [e'] = [e']
        rw [hnew hcall', List.nil_append]
    · exact ht.call_alone a s hs e' he' hcall'

/-- The edge stands behind those that its source had. -/
theorem has_attach {edges : List Edge} (h : n.Has source edges) :
    (n.attach source e).Has source (edges ++ [e]) := by
  obtain ⟨s, hs, hkind, rfl⟩ := h
  exact ⟨{ s with edges := s.edges ++ [e] }, by rw [state?_attach, if_pos rfl, hs]; rfl, hkind, rfl⟩

end Attach

section AddEdge

variable {n : Network} {source : Nat} {edges : List Edge} {e : Edge}

/-- An edge that is no call is just attached. A call also adds the edge that returns. -/
theorem addEdge_eq_attach (h : e.isCall = false) : n.addEdge source e = n.attach source e := by
  cases e with
  | call target rule follow level => cases h
  | _ => rfl

/-- An edge that is no call touches its source only. -/
theorem grows_addEdge (hcall : e.isCall = false) (hsource : n.Has source edges)
    (hedges : ∀ e' ∈ edges, e'.isCall = false) (hpass : e.passes = true → n.Inner e.target) :
    n.Grows (n.addEdge source e) fun a => a = source := by
  rw [addEdge_eq_attach hcall]
  have hnot : ∀ target rule (f : Nat) level, e ≠ .call target rule f level := by
    rintro target rule f level rfl
    cases hcall
  -- The source is no stop state, so stop states get no edges.
  have hkind : ∀ s, n.state? source = some s → s.kind ≠ .ruleStop := by
    intro s hs
    obtain ⟨s', hs', hkind', -⟩ := hsource
    rw [hs] at hs'
    cases hs'
    exact hkind'
  refine {
    size_le := by simp
    starts_eq := rfl
    stops_eq := rfl
    max_eq := rfl
    frame := fun a s hs _ hne => by rw [state?_attach, if_neg (Ne.symm hne), hs]
    stop := fun a s hs hstop => ?_
    follow := fun f hf => ?_
    tidy := fun ht => tidy_attach ht (fun t r f l he => absurd he (hnot t r f l))
      (fun _ _ _ => hpass) (fun s hs hstop => absurd hstop (hkind s hs)) fun s hs => ?_ }
  · refine ⟨[], ?_, by simp⟩
    rw [state?_attach, if_neg, hs, List.append_nil]
    rintro rfl
    exact hkind s hs hstop
  · rcases isFollow_of_attach n source e hf with hf | ⟨target, rule, level, he⟩
    · exact Or.inl hf
    · exact absurd he (hnot _ _ _ _)
  · obtain ⟨s', hs', -, rfl⟩ := hsource
    cases hs.symm.trans hs'
    refine ⟨hedges, fun htrue => ?_⟩
    rw [hcall] at htrue
    cases htrue

/-- The source has the edge then, behind those it had. -/
theorem has_addEdge (hcall : e.isCall = false) (hsource : n.Has source edges) :
    (n.addEdge source e).Has source (edges ++ [e]) := by
  rw [addEdge_eq_attach hcall]
  exact has_attach hsource

/-- Edges leave the number of states as it is, also the two that a call comes with. -/
theorem size_addEdge : (n.addEdge source e).states.size = n.states.size := by
  cases e with
  | call target rule follow level =>
      rw [addEdge]
      cases n.stop? rule <;> simp
  | _ => exact size_attach n source _

/-- A new state behind an edge that is no call. -/
theorem extend_spec (rule : RuleIndex) (kind : StateKind) (hkind : kind ≠ .ruleStop)
    (hcall : e.isCall = false) (htarget : e.target = n.states.size) (ht : n.Tidy)
    (hsource : n.Has source edges) (hedges : ∀ e' ∈ edges, e'.isCall = false) :
    n.Grows ((n.addState rule kind).addEdge source e) (fun a => a = source) ∧
      ((n.addState rule kind).addEdge source e).Has n.states.size [] ∧
      ((n.addState rule kind).addEdge source e).Inner n.states.size ∧
      ((n.addState rule kind).addEdge source e).Has source (edges ++ [e]) := by
  have hgrown := grows_addState n rule kind hkind
  have hinner := inner_addState n rule kind ht
  have hsource' := hgrown.has hsource id
  have hadded := grows_addEdge hcall hsource' hedges fun _ => htarget ▸ hinner
  -- The new state is not the source, so it still has no edges.
  refine ⟨(hgrown.trans hadded).mono fun a _ ha => ha.resolve_left id, ?_, hadded.inner hinner,
    has_addEdge hcall hsource'⟩
  exact hadded.has (has_addState n rule kind hkind) (Nat.ne_of_gt hsource.lt)

end AddEdge

/-! ### Adding a choice -/

/-- The edges of a decision between two ways, the preferred one first. -/
def ways (greedy : Bool) (inside outside : Nat) : List Edge :=
  if greedy then [.epsilon inside, .epsilon outside] else [.epsilon outside, .epsilon inside]

/-- A choice touches its decision only. -/
theorem choose_spec {n : Network} {decision first second : Nat} (hdecision : n.Has decision [])
    (hfirst : n.Inner first) (hsecond : n.Inner second) :
    n.Grows (n.choose decision first second) (fun a => a = decision) ∧
      (n.choose decision first second).Has decision [.epsilon first, .epsilon second] := by
  have hone := grows_addEdge (e := .epsilon first) rfl hdecision (by simp) fun _ => hfirst
  have hhas := has_addEdge (e := .epsilon first) rfl hdecision
  have htwo := grows_addEdge (e := .epsilon second) rfl hhas (by simp [Edge.isCall]) fun _ =>
    hone.inner hsecond
  exact ⟨(hone.trans htwo).mono fun a _ ha => ha.elim id id, has_addEdge rfl hhas⟩

/-- The same where one way is into a part and the other past it. The preferred one is put first. -/
theorem decide_spec {n : Network} {decision inside outside : Nat} (greedy : Bool)
    (hdecision : n.Has decision []) (hinside : n.Inner inside) (houtside : n.Inner outside) :
    n.Grows (n.decide decision inside outside greedy) (fun a => a = decision) ∧
      (n.decide decision inside outside greedy).Has decision (ways greedy inside outside) := by
  cases greedy with
  | true => exact choose_spec hdecision hinside houtside
  | false => exact choose_spec hdecision houtside hinside

/-! ### Adding a call -/

section Call

variable {n : Network} {source : Nat} {callee : RuleIndex} {start stop : Nat}
  {first last : State}

variable (source) in
/-- The steps of a call: its follow state, the edge of the stop state, and the call itself. -/
theorem call_eq (rule : RuleIndex) (level : Int) (hstart : n.start? callee = some start)
    (hstop : n.stop? callee = some stop) : n.call rule source callee level =
      ⟨((n.addState rule .basic).attach stop (.epsilon n.states.size)).attach source
        (.call start callee n.states.size level), n.states.size⟩ := by
  have hstart' : (n.addState rule .basic).start? callee = some start := hstart
  have hstop' : (n.addState rule .basic).stop? callee = some stop := hstop
  simp only [call, hstart', addEdge, hstop']
  rfl

/-- The states that a call leaves behind. -/
theorem state?_call (rule : RuleIndex) (level : Int) (hstart : n.start? callee = some start)
    (hstop : n.stop? callee = some stop) (hfirst : n.state? source = some first)
    (hlast : n.state? stop = some last) (hne : source ≠ stop) (a : Nat) :
    (n.call rule source callee level).network.state? a =
      if a = n.states.size then some ⟨n.states.size, rule, .basic, []⟩
      else if a = source then
        some { first with edges := first.edges ++ [.call start callee n.states.size level] }
      else if a = stop then
        some { last with edges := last.edges ++ [.epsilon n.states.size] }
      else n.state? a := by
  have hsourceLt : source < n.states.size := state?_lt hfirst
  have hstopLt : stop < n.states.size := state?_lt hlast
  rw [call_eq source rule level hstart hstop, state?_attach, state?_attach, state?_addState]
  by_cases hnew : a = n.states.size
  · rw [if_pos hnew, if_pos hnew, if_neg (by omega), if_neg (by omega)]
  · rw [if_neg hnew, if_neg hnew]
    by_cases hsource : a = source
    · rw [if_pos hsource.symm, if_neg (by omega), if_pos hsource, hsource, hfirst]
      rfl
    · rw [if_neg (Ne.symm hsource), if_neg hsource]
      by_cases hstopped : a = stop
      · rw [if_pos hstopped.symm, if_pos hstopped, hstopped, hlast]
        rfl
      · rw [if_neg (Ne.symm hstopped), if_neg hstopped]

/-- The network stays tidy under a call. The edge that returns is attached before the call, so that
the follow state is one that the stop state returns to. -/
theorem tidy_call (rule : RuleIndex) (level : Int) (ht : n.Tidy)
    (hstart : n.start? callee = some start) (hstop : n.stop? callee = some stop)
    (hfirst : n.state? source = some first) (hkind : first.kind ≠ .ruleStop)
    (hnil : first.edges = []) (hlast : n.state? stop = some last)
    (hlastKind : last.kind = .ruleStop) (hne : source ≠ stop) :
    (n.call rule source callee level).network.Tidy := by
  have hstopLt : stop < n.states.size := state?_lt hlast
  rw [call_eq source rule level hstart hstop]
  have hgrown : (n.addState rule .basic).Tidy :=
    (grows_addState n rule .basic (by decide)).tidy ht
  have hlast' : (n.addState rule .basic).state? stop = some last := by
    rw [state?_addState, if_neg (by omega), hlast]
  have hreturning :
      ((n.addState rule .basic).attach stop (.epsilon n.states.size)).Tidy := by
    refine tidy_attach hgrown (fun _ _ _ _ he => by cases he) ?_ ?_ ?_
    · intro s hs hnot
      rw [hlast'] at hs
      cases hs
      exact absurd hlastKind hnot
    · have hnot := (inner_addState n rule .basic ht).not_follow
      exact fun _ _ _ => ⟨n.states.size, rfl, by simp, hnot⟩
    · intro s hs
      cases hlast'.symm.trans hs
      refine ⟨fun e he => ?_, fun hcall => by cases hcall⟩
      obtain ⟨t, rfl, -⟩ := ht.stop_edges stop last hlast hlastKind e he
      rfl
  have hsource : ((n.addState rule .basic).attach stop (.epsilon n.states.size)).state? source =
      some first := by
    have := state?_lt hfirst
    rw [state?_attach, if_neg (Ne.symm hne), state?_addState, if_neg (by omega), hfirst]
  refine tidy_attach hreturning ?_ (fun _ _ _ hpasses => by cases hpasses) ?_ ?_
  · rintro target r f l he
    cases he
    refine ⟨by simp, fun hp => ?_, hstart, fun callee' stop' s hstop' hs => ?_⟩
    · rcases isPassed_of_attach _ _ _ hp with hp | ⟨-, -, s, hs, hnot⟩
      · have := ht.passed_lt _ ((isPassed_addState n rule .basic _).mp hp)
        omega
      · rw [hlast'] at hs
        cases hs
        exact hnot hlastKind
    · -- Only the stop state of the called rule has got an edge to the new state.
      obtain ⟨s', hs', -⟩ := ht.stop_kind callee' stop' hstop'
      have hnone := ht.filter_stop_eq_nil hstop' hs' (Nat.le_refl _)
      rw [state?_attach, state?_addState, if_neg (Nat.ne_of_lt (state?_lt hs'))] at hs
      split at hs
      · rename_i heq
        rw [hs'] at hs
        cases hs
        rw [if_pos (ht.stop_injective _ _ _ hstop' (heq ▸ hstop)), List.filter_append, hnone]
        simp [Edge.target]
      · rename_i hne'
        cases hs'.symm.trans hs
        rw [hnone, if_neg]
        rintro rfl
        exact hne' (Option.some.inj (hstop.symm.trans hstop'))
  · intro s hs hk
    cases hsource.symm.trans hs
    exact absurd hk hkind
  · intro s hs
    cases hsource.symm.trans hs
    rw [hnil]
    exact ⟨by simp, fun _ => rfl⟩

/-- A call touches its source. The stop state of the called rule gets an edge to the new state. -/
theorem grows_call (rule : RuleIndex) (level : Int) (ht : n.Tidy)
    (hstart : n.start? callee = some start) (hstop : n.stop? callee = some stop)
    (hfirst : n.state? source = some first) (hkind : first.kind ≠ .ruleStop)
    (hnil : first.edges = []) (hlast : n.state? stop = some last)
    (hlastKind : last.kind = .ruleStop) (hne : source ≠ stop) :
    n.Grows (n.call rule source callee level).network fun a => a = source := by
  have hstate := state?_call rule level hstart hstop hfirst hlast hne
  have hcall := call_eq source rule level hstart hstop
  have hsize : (n.call rule source callee level).network.states.size = n.states.size + 1 := by
    rw [hcall]
    simp
  refine {
    size_le := by omega
    starts_eq := by rw [hcall]; rfl
    stops_eq := by rw [hcall]; rfl
    max_eq := by rw [hcall]; rfl
    frame := fun a s hs hk hnot => ?_
    stop := fun a s hs hk => ?_
    follow := fun f hf => ?_
    tidy := fun _ => tidy_call rule level ht hstart hstop hfirst hkind hnil hlast hlastKind hne }
  · rw [hstate, if_neg (Nat.ne_of_lt (state?_lt hs)), if_neg hnot, if_neg, hs]
    rintro rfl
    rw [hlast] at hs
    cases hs
    exact hk hlastKind
  · have hnot : a ≠ source := by
      rintro rfl
      rw [hfirst] at hs
      cases hs
      exact hkind hk
    rw [hstate, if_neg (Nat.ne_of_lt (state?_lt hs)), if_neg hnot]
    split
    · rename_i heq
      rw [heq, hlast] at hs
      cases hs
      -- This is the stop state of the called rule.
      refine ⟨[.epsilon n.states.size], rfl, fun e he => ?_⟩
      rw [List.mem_singleton] at he
      exact ⟨n.states.size, he, Nat.le_refl _, by omega⟩
    · exact ⟨[], by rw [hs, List.append_nil], by simp⟩
  · rw [hcall] at hf
    -- Of the two edges only the call makes a caller go on, and it does so at the new state.
    rcases isFollow_of_attach _ _ _ hf with hf | ⟨target, r, l, he⟩
    · rcases isFollow_of_attach _ _ _ hf with hf | ⟨target, r, l, he⟩
      · exact Or.inl ((isFollow_addState n rule .basic f).mp hf)
      · cases he
    · cases he
      exact Or.inr (Nat.le_refl _)

/-- What a call adds: the edge that calls, the state where the caller goes on, and the edge of the
stop state that returns to it. -/
theorem call_spec (rule : RuleIndex) (level : Int) (ht : n.Tidy) (hsource : n.Has source [])
    (hcallee : callee < n.starts.size) :
    ∃ start, n.start? callee = some start ∧
      (n.call rule source callee level).exit = n.states.size ∧
      n.Grows (n.call rule source callee level).network (fun a => a = source) ∧
      (n.call rule source callee level).network.Has n.states.size [] ∧
      (n.call rule source callee level).network.Has source
        [.call start callee n.states.size level] ∧
      (n.call rule source callee level).network.Returns callee n.states.size := by
  obtain ⟨start, hstart⟩ : ∃ start, n.start? callee = some start :=
    ⟨_, Array.getElem?_eq_getElem hcallee⟩
  obtain ⟨stop, hstop⟩ : ∃ stop, n.stop? callee = some stop :=
    ⟨_, Array.getElem?_eq_getElem (ht.stops_size ▸ hcallee)⟩
  obtain ⟨last, hlast, hlastKind⟩ := ht.stop_kind callee stop hstop
  obtain ⟨first, hfirst, hkind, hnil⟩ := hsource
  -- The source has no edges and is no stop state, so the two states that get edges differ.
  have hne : source ≠ stop := by
    rintro rfl
    rw [hfirst] at hlast
    cases hlast
    exact hkind hlastKind
  have hsourceLt : source < n.states.size := state?_lt hfirst
  have hstopLt : stop < n.states.size := state?_lt hlast
  have hstate := state?_call rule level hstart hstop hfirst hlast hne
  have hcall := call_eq source rule level hstart hstop
  refine ⟨start, hstart, by rw [hcall],
    grows_call rule level ht hstart hstop hfirst hkind hnil hlast hlastKind hne, ?_, ?_, ?_⟩
  · exact ⟨_, by rw [hstate, if_pos rfl], by simp, rfl⟩
  · refine ⟨{ first with edges := first.edges ++ [.call start callee n.states.size level] }, ?_,
      hkind, ?_⟩
    · rw [hstate, if_neg (by omega), if_pos rfl]
    · rw [hnil, List.nil_append]
  · refine ⟨by rw [hcall]; simp, stop,
      { last with edges := last.edges ++ [.epsilon n.states.size] }, ?_, ?_, hlastKind, ?_⟩
    · rw [hcall]
      exact hstop
    · rw [hstate, if_neg (Nat.ne_of_lt hstopLt), if_neg (Ne.symm hne), if_pos rfl]
    · -- No edge of the stop state could lead to a state that was not there.
      rw [List.filter_append, ht.filter_stop_eq_nil hstop hlast (Nat.le_refl _)]
      simp [Edge.target]

end Call

end Network

end Caret
