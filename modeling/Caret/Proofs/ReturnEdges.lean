import Caret.Proofs.Realization

/-!
# `Caret.Proofs.ReturnEdges`: the edges by which rules return

A network can be built in any order, by adding rules, states and edges (`Network.Edit`). Adding a
call does two things to it: the stop state of the called rule gets an edge to the state where the
caller goes on, and the source of the call gets the call itself. The source need not be there, and
then only the first of the two happens.

So there are two accounts of the calls of a rule. The edges of its stop state list the calls that
were added (`Network.Accounts`), while the calls that the network holds (`Network.follows`) are
those that were added to a state that was there. `stops_list_the_calls` compares the two: they
differ by the calls that went nowhere (`Network.strays`), and `stray_call_leaves_an_edge` is such a
call.

Numbers of states are positions here. Those that are handed out stop at the greatest unsigned 32-bit
number (`Network.cappedId`), which makes no difference up to 2³² states (`Network.editCapped_eq`).
-/

set_option autoImplicit false

namespace Caret

/-- The rule that an edge calls. -/
def Edge.callee? : Edge → Option RuleIndex
  | .call _ rule _ _ => some rule
  | _ => none

/-- The state at which a call of the rule goes on. -/
def Edge.returnTo? (r : RuleIndex) : Edge → Option StateId
  | .call _ rule follow _ => if rule = r then some follow else none
  | _ => none

/-- The state to which an edge leads that only moves on. -/
def Edge.movesTo? : Edge → Option StateId
  | .epsilon target => some target
  | _ => none

/-- Only calls go on somewhere. -/
theorem Edge.returnTo?_eq_none {e : Edge} (h : e.isCall = false) (r : RuleIndex) :
    e.returnTo? r = none := by
  cases e with
  | call _ _ _ _ => cases h
  | _ => rfl

/-- Calls of other rules do not return from this one. -/
theorem Edge.returnTo?_eq_none_of_ne {e : Edge} {r : RuleIndex} (h : ∀ rule ∈ e.callee?, rule ≠ r) :
    e.returnTo? r = none := by
  cases e with
  | call _ rule _ _ => exact if_neg (h rule rfl)
  | _ => rfl

/-- Edges that just move on are known by their targets. -/
theorem filterMap_movesTo?_epsilon (ids : List StateId) :
    (ids.map Edge.epsilon).filterMap Edge.movesTo? = ids := by
  rw [List.filterMap_map]
  exact List.filterMap_some

namespace Network

/-! ### Edges of a network -/

/-- All edges, by the states that they leave. -/
def edges (n : Network) : List Edge := n.states.toList.flatMap State.edges

/-- The states at which the calls of a rule go on. -/
def follows (n : Network) (r : RuleIndex) : List StateId := n.edges.filterMap (Edge.returnTo? r)

/-- The states to which the stop state of a rule moves on. -/
def returnTargets (n : Network) (r : RuleIndex) : List StateId :=
  (((n.stop? r).bind n.state?).toList.flatMap State.edges).filterMap Edge.movesTo?

/-- A new state has no edges. -/
theorem edges_addState (n : Network) (rule : RuleIndex) (kind : StateKind) :
    (n.addState rule kind).edges = n.edges := by
  simp [edges, addState]

/-- A new edge is one more, wherever it stands. -/
theorem edges_attach {n : Network} {a : Nat} {s : State} (hs : n.state? a = some s) (e : Edge) :
    (n.attach a e).edges.Perm (e :: n.edges) := by
  obtain ⟨hlt, rfl⟩ := Array.getElem?_eq_some_iff.mp hs
  have hlist : a < n.states.toList.length := hlt
  -- The edges before the source, those of the source, and those behind it.
  have hold : n.edges = (n.states.toList.take a).flatMap State.edges ++
      (n.states[a].edges ++ (n.states.toList.drop (a + 1)).flatMap State.edges) := by
    have hsplit : n.states.toList =
        n.states.toList.take a ++ n.states[a] :: n.states.toList.drop (a + 1) := by
      rw [← Array.getElem_toList hlist, ← List.drop_eq_getElem_cons hlist, List.take_append_drop]
    rw [edges]
    nth_rewrite 1 [hsplit]
    rw [List.flatMap_append, List.flatMap_cons]
  have hnew : (n.attach a e).edges = (n.states.toList.take a).flatMap State.edges ++
      (n.states[a].edges ++ [e] ++ (n.states.toList.drop (a + 1)).flatMap State.edges) := by
    rw [edges, attach, Array.toList_modify, List.modify_eq_take_cons_drop hlist,
      List.flatMap_append, List.flatMap_cons, Array.getElem_toList]
  rw [hold, hnew]
  simp only [List.append_assoc, List.singleton_append]
  rw [← List.append_assoc, ← List.append_assoc]
  exact List.perm_middle

/-- So it makes no calls. -/
theorem follows_addState (n : Network) (rule : RuleIndex) (kind : StateKind) (r : RuleIndex) :
    (n.addState rule kind).follows r = n.follows r := by
  rw [follows, follows, edges_addState]

/-- The two states of a new rule make no calls either. -/
theorem follows_addRule (n : Network) (r : RuleIndex) : n.addRule.follows r = n.follows r := by
  show ((n.addState n.ruleCount .ruleStart).addState n.ruleCount .ruleStop).follows r = _
  rw [follows_addState, follows_addState]

/-- A new edge is one more call if it calls the rule. -/
theorem follows_attach {n : Network} {a : Nat} {s : State} (hs : n.state? a = some s) (e : Edge)
    (r : RuleIndex) :
    ((n.attach a e).follows r).Perm ((e.returnTo? r).toList ++ n.follows r) := by
  have hperm := (edges_attach hs e).filterMap (Edge.returnTo? r)
  rw [follows, follows]
  cases he : e.returnTo? r with
  | none =>
      rw [List.filterMap_cons_none he] at hperm
      exact hperm
  | some f =>
      rw [List.filterMap_cons_some he] at hperm
      exact hperm

/-! ### Kinds of states -/

/-- The state is there and has this kind. -/
def HasKind (n : Network) (kind : StateKind) (a : Nat) : Prop :=
  ∃ s, n.state? a = some s ∧ s.kind = kind

instance (n : Network) (kind : StateKind) (a : Nat) : Decidable (n.HasKind kind a) :=
  decidable_of_iff ((n.state? a).any fun s => s.kind = kind)
    (by cases h : n.state? a <;> simp [HasKind, h])

section Keep

variable {n : Network} {a : Nat} {e : Edge}

/-- States keep their places when one is added. -/
theorem state?_addState_of {s : State} (hs : n.state? a = some s) (rule : RuleIndex)
    (kind : StateKind) : (n.addState rule kind).state? a = some s := by
  rw [state?_addState, if_neg (Nat.ne_of_lt (state?_lt hs)), hs]

/-- They keep their kinds as well. -/
theorem HasKind.addState {k : StateKind} (h : n.HasKind k a) (rule : RuleIndex)
    (kind : StateKind) : (n.addState rule kind).HasKind k a := by
  obtain ⟨s, hs, hk⟩ := h
  exact ⟨s, state?_addState_of hs rule kind, hk⟩

/-- A state has one kind. -/
theorem not_hasKind {s : State} {k : StateKind} (hs : n.state? a = some s) (hne : s.kind ≠ k) :
    ¬ n.HasKind k a := by
  rintro ⟨s', hs', hk⟩
  cases hs.symm.trans hs'
  exact hne hk

/-- An edge does not change the kind of a state. -/
theorem hasKind_attach_iff (k : StateKind) (b : Nat) :
    (n.attach a e).HasKind k b ↔ n.HasKind k b := by
  constructor
  · rintro ⟨s, hs, hk⟩
    obtain ⟨s', hs', hkind, -⟩ := exists_of_state?_attach n a e hs
    exact ⟨s', hs', hkind ▸ hk⟩
  · rintro ⟨s, hs, hk⟩
    rw [HasKind, state?_attach, hs]
    split
    · exact ⟨_, rfl, hk⟩
    · exact ⟨s, rfl, hk⟩

/-- Without a source an edge is lost. -/
theorem attach_eq_self (h : n.state? a = none) (e : Edge) : n.attach a e = n := by
  have hsize : n.states.size ≤ a := Array.getElem?_eq_none_iff.mp h
  have hstates : n.states.modify a (fun s => { s with edges := s.edges ++ [e] }) = n.states := by
    refine Array.ext_getElem? fun b => ?_
    rw [Array.getElem?_modify]
    split
    · rename_i heq
      rw [← heq, Array.getElem?_eq_none hsize]
      rfl
    · rfl
  rw [attach, hstates]

/-- A state that is there has one edge more afterwards. -/
theorem attach_ne_self {s : State} (h : n.state? a = some s) (e : Edge) : n.attach a e ≠ n := by
  intro hsame
  have hs := state?_attach n a e a
  rw [hsame, if_pos rfl, h] at hs
  -- The state would have as many edges as before.
  have hedges := congrArg State.edges (Option.some.inj hs)
  exact absurd (congrArg List.length hedges) (by simp)

/-! ### Stop states of rules -/

/-- Every rule has a stop state of its own. -/
structure Registered (n : Network) : Prop where
  stops_size : n.stops.size = n.starts.size
  stop_kind : ∀ r stop, n.stop? r = some stop → n.HasKind .ruleStop stop
  stop_injective : ∀ r r' stop, n.stop? r = some stop → n.stop? r' = some stop → r = r'

/-- Stop states are among what is tidy about a network. -/
theorem Tidy.registered (h : n.Tidy) : n.Registered :=
  ⟨h.stops_size, h.stop_kind, h.stop_injective⟩

/-- The stop state of a rule that exists. -/
theorem Registered.exists_stop (h : n.Registered) {r : RuleIndex} (hr : r < n.ruleCount) :
    ∃ stop last, n.stop? r = some stop ∧ n.state? stop = some last ∧ last.kind = .ruleStop := by
  obtain ⟨stop, hstop⟩ : ∃ stop, n.stop? r = some stop :=
    ⟨_, Array.getElem?_eq_getElem (h.stops_size ▸ hr)⟩
  obtain ⟨last, hlast⟩ := h.stop_kind r stop hstop
  exact ⟨stop, last, hstop, hlast⟩

/-- A new state changes nothing about stop states. -/
theorem Registered.addState (h : n.Registered) (rule : RuleIndex) (kind : StateKind) :
    (n.addState rule kind).Registered where
  stops_size := h.stops_size
  stop_kind r stop hstop := (h.stop_kind r stop hstop).addState rule kind
  stop_injective := h.stop_injective

/-- Neither does an edge. -/
theorem Registered.attach (h : n.Registered) (a : Nat) (e : Edge) : (n.attach a e).Registered where
  stops_size := h.stops_size
  stop_kind r stop hstop := (hasKind_attach_iff .ruleStop stop).mpr (h.stop_kind r stop hstop)
  stop_injective := h.stop_injective

/-- The stop state of a new rule is the second of its two states. -/
theorem stop?_addRule (n : Network) (r : RuleIndex) : n.addRule.stop? r =
    if r = n.stops.size then some (n.states.size + 1) else n.stop? r := by
  show (n.stops.push (n.states.size + 1))[r]? = _
  rw [Array.getElem?_push]
  rfl

/-- One rule more. -/
theorem ruleCount_addRule (n : Network) : n.addRule.ruleCount = n.ruleCount + 1 := by
  show (n.starts.push n.nextId).size = _
  rw [Array.size_push]
  rfl

/-- A new rule has a stop state of its own. -/
theorem Registered.addRule (h : n.Registered) : n.addRule.Registered := by
  have hold : ∀ (r stop : Nat), n.stop? r = some stop → stop ≠ n.states.size + 1 := by
    intro r stop hstop
    obtain ⟨s, hs, -⟩ := h.stop_kind r stop hstop
    have hlt := state?_lt hs
    omega
  refine ⟨?_, fun r stop hstop => ?_, fun r r' stop hstop hstop' => ?_⟩
  · show (n.stops.push (n.nextId + 1)).size = (n.starts.push n.nextId).size
    rw [Array.size_push, Array.size_push, h.stops_size]
  · rw [stop?_addRule] at hstop
    split at hstop
    · cases hstop
      exact ⟨_, by rw [state?_addRule, if_pos rfl], rfl⟩
    · exact ((h.stop_kind r stop hstop).addState n.ruleCount .ruleStart).addState _ .ruleStop
  · -- The stop state of the new rule stands behind all states that were there.
    rw [stop?_addRule] at hstop hstop'
    split at hstop <;> split at hstop'
    · rename_i heq heq'
      exact heq.trans heq'.symm
    · cases hstop
      exact absurd rfl (hold r' _ hstop')
    · cases hstop'
      exact absurd rfl (hold r _ hstop)
    · exact h.stop_injective r r' stop hstop hstop'

/-- The edges of the stop states of rules are those that move on to the given states. -/
def ReturnsTo (n : Network) (owed : RuleIndex → List StateId) : Prop :=
  ∀ r stop s, n.stop? r = some stop → n.state? stop = some s →
    s.edges.Perm ((owed r).map Edge.epsilon)

namespace ReturnsTo

variable {owed owed' : RuleIndex → List StateId} (h : n.ReturnsTo owed)
include h

/-- The order of what is owed does not matter. -/
theorem perm (hperm : ∀ r, (owed r).Perm (owed' r)) : n.ReturnsTo owed' :=
  fun r stop s hstop hs => (h r stop s hstop hs).trans ((hperm r).map Edge.epsilon)

/-- A new state makes no difference. -/
theorem addState (hn : n.Registered) (rule : RuleIndex) (kind : StateKind) :
    (n.addState rule kind).ReturnsTo owed := by
  intro r stop s hstop hs
  obtain ⟨s', hs', -⟩ := hn.stop_kind r stop hstop
  rw [state?_addState_of hs' rule kind] at hs
  cases hs
  exact h r stop s hstop hs'

/-- An edge of another state makes no difference. -/
theorem attach (hn : n.Registered) (ha : ¬ n.HasKind .ruleStop a) (e : Edge) :
    (n.attach a e).ReturnsTo owed := by
  intro r stop s hstop hs
  have hne : a ≠ stop := by
    rintro rfl
    exact ha (hn.stop_kind r a hstop)
  rw [state?_attach, if_neg hne] at hs
  exact h r stop s hstop hs

/-- The stop state of a rule gets one more edge, and the others keep theirs. -/
theorem attach_stop (hn : n.Registered) {callee : RuleIndex} {stop : Nat}
    (hstop : n.stop? callee = some stop) (f : StateId) :
    (n.attach stop (.epsilon f)).ReturnsTo fun r => if callee = r then f :: owed r else owed r := by
  intro r stop' s hstop' hs
  rw [state?_attach] at hs
  -- Only the called rule is owed one more state, since stop states are not shared.
  by_cases hsame : callee = r
  · subst hsame
    cases hstop.symm.trans hstop'
    rw [if_pos rfl] at hs
    obtain ⟨s', hs', rfl⟩ := Option.map_eq_some_iff.mp hs
    show (s'.edges ++ [Edge.epsilon f]).Perm _
    simp only [if_true, List.map_cons]
    exact (List.perm_append_singleton _ _).trans ((h callee stop s' hstop hs').cons _)
  · have hne : stop ≠ stop' := by
      rintro rfl
      exact hsame (hn.stop_injective callee r stop hstop hstop')
    rw [if_neg hne] at hs
    simp only [if_neg hsame]
    exact h r stop' s hstop' hs

/-- A call adds the state where it goes on to what its rule owes, wherever the call stands. -/
theorem addEdge (hn : n.Registered) (hcallee : ∀ rule ∈ e.callee?, rule < n.ruleCount)
    (ha : ¬ n.HasKind .ruleStop a) :
    (n.addEdge a e).ReturnsTo fun r => (e.returnTo? r).toList ++ owed r := by
  cases e with
  | call target rule f level =>
      obtain ⟨stop, -, hstop, -⟩ := hn.exists_stop (hcallee rule rfl)
      -- The edge that returns comes first, then the call itself.
      have hboth : n.addEdge a (.call target rule f level) =
          (n.attach stop (.epsilon f)).attach a (.call target rule f level) := by
        rw [Network.addEdge, hstop]
      rw [hboth]
      refine ((h.attach_stop hn hstop f).attach (hn.attach _ _) ?_ _).perm fun r => ?_
      · rw [hasKind_attach_iff]
        exact ha
      · by_cases hsame : rule = r <;> simp [Edge.returnTo?, hsame]
  | _ => exact h.attach hn ha _

end ReturnsTo

end Keep

/-! ### Building a network in any order -/

/-- A step by which a network is built. -/
inductive Edit where
  | addRule
  | addState (rule : RuleIndex) (kind : StateKind)
  | addEdge (source : StateId) (e : Edge)

namespace Edit

/-- The network after the step. -/
def apply (n : Network) : Edit → Network
  | .addRule => n.addRule
  | .addState rule kind => n.addState rule kind
  | .addEdge source e => n.addEdge source e

/-- A call names a rule that is there, and no edge leaves a stop state. The source of an edge may be
missing, and an edge may lead anywhere. -/
def Permitted (n : Network) : Edit → Prop
  | .addEdge source e => (∀ rule ∈ e.callee?, rule < n.ruleCount) ∧ ¬ n.HasKind .ruleStop source
  | _ => True

/-- The state at which the call goes on that the step adds, if it is one of the rule. -/
def returnTo? (r : RuleIndex) : Edit → Option StateId
  | .addEdge _ e => e.returnTo? r
  | _ => none

/-- The same if the source of the call is not there. -/
def stray? (n : Network) (r : RuleIndex) : Edit → Option StateId
  | .addEdge source e => if (n.state? source).isNone then e.returnTo? r else none
  | _ => none

end Edit

/-- The network after some steps. -/
def edit (n : Network) (edits : List Edit) : Network := edits.foldl Edit.apply n

/-- The network after the step, with the numbers that are handed out for new states. -/
def Edit.applyCapped (n : Network) : Edit → Network
  | .addRule => n.addRuleCapped
  | .addState rule kind => n.addStateCapped rule kind
  | .addEdge source e => n.addEdge source e

/-- The network after some steps, with the numbers that are handed out for new states. -/
def editCapped (n : Network) (edits : List Edit) : Network := edits.foldl Edit.applyCapped n

/-- Each of the steps is permitted when it is taken. -/
def Permits : Network → List Edit → Prop
  | _, [] => True
  | n, e :: edits => e.Permitted n ∧ Permits (e.apply n) edits

instance (n : Network) (e : Edit) : Decidable (e.Permitted n) :=
  match e with
  | .addEdge _ _ => inferInstanceAs (Decidable (_ ∧ _))
  | .addRule | .addState _ _ => inferInstanceAs (Decidable True)

instance decidablePermits : (n : Network) → (edits : List Edit) → Decidable (n.Permits edits)
  | _, [] => inferInstanceAs (Decidable True)
  | n, e :: edits =>
      have := decidablePermits (e.apply n) edits
      inferInstanceAs (Decidable (_ ∧ _))

/-- The states at which those calls of a rule go on that were added to states that were not
there. -/
def strays (r : RuleIndex) : Network → List Edit → List StateId
  | _, [] => []
  | n, e :: edits => (e.stray? n r).toList ++ strays r (e.apply n) edits

/-- Every rule has a stop state, which moves on to the states that are owed to the rule. -/
structure Accounts (n : Network) (owed : RuleIndex → List StateId) : Prop extends n.Registered where
  returns : n.ReturnsTo owed
  unknown : ∀ r, n.ruleCount ≤ r → owed r = []

/-- No rules, no calls. -/
theorem accounts_empty (max : TokenType) : (empty max).Accounts fun _ => [] where
  stops_size := rfl
  stop_kind r stop hstop := by simp [stop?, empty] at hstop
  stop_injective r r' stop hstop := by simp [stop?, empty] at hstop
  returns r stop s hstop := by simp [stop?, empty] at hstop
  unknown _ _ := rfl

section Edits

variable {n : Network} {owed : RuleIndex → List StateId}

/-- Edges add no rules. -/
theorem ruleCount_addEdge (a : Nat) (e : Edge) : (n.addEdge a e).ruleCount = n.ruleCount := by
  cases e with
  | call target rule f level =>
      rw [addEdge]
      cases n.stop? rule <;> rfl
  | _ => rfl

/-- Edges leave stop states in their places. -/
theorem Registered.addEdge (h : n.Registered) (a : Nat) (e : Edge) :
    (n.addEdge a e).Registered := by
  cases e with
  | call target rule f level =>
      rw [Network.addEdge]
      split
      · exact (h.attach _ _).attach _ _
      · exact h.attach _ _
  | _ => exact h.attach _ _

/-- A new rule owes nothing. -/
theorem Accounts.addRule (h : n.Accounts owed) : n.addRule.Accounts owed where
  toRegistered := h.toRegistered.addRule
  returns := by
    intro r stop s hstop hs
    rw [stop?_addRule] at hstop
    split at hstop
    · rename_i hnew
      cases hstop
      rw [state?_addRule, if_pos rfl] at hs
      cases hs
      -- A rule that does not exist yet is owed nothing.
      rw [h.unknown r (Nat.le_of_eq (hnew.trans h.stops_size).symm)]
      exact List.Perm.nil
    · exact ((h.returns.addState h.toRegistered _ _).addState (h.toRegistered.addState _ _) _ _)
        r stop s hstop hs
  unknown r hr := h.unknown r (by rw [ruleCount_addRule] at hr; omega)

/-- What a step adds to the account of a rule. -/
theorem Accounts.apply (h : n.Accounts owed) {e : Edit} (he : e.Permitted n) :
    (e.apply n).Accounts fun r => (e.returnTo? r).toList ++ owed r := by
  cases e with
  | addRule => exact h.addRule
  | addState rule kind =>
      exact ⟨h.toRegistered.addState rule kind, h.returns.addState h.toRegistered rule kind,
        h.unknown⟩
  | addEdge source e =>
      obtain ⟨hcallee, hsource⟩ := he
      refine ⟨h.toRegistered.addEdge source e, h.returns.addEdge h.toRegistered hcallee hsource,
        fun r hr => ?_⟩
      have hr' : n.ruleCount ≤ r := hr.trans_eq' (ruleCount_addEdge source e)
      -- No call is permitted for a rule that does not exist.
      have hnone : e.returnTo? r = none :=
        Edge.returnTo?_eq_none_of_ne fun rule hrule =>
          Nat.ne_of_lt ((hcallee rule hrule).trans_le hr')
      show (e.returnTo? r).toList ++ owed r = []
      rw [hnone, h.unknown r hr']
      rfl

/-- Along a run, the stop state of a rule collects the calls of the rule. -/
theorem Accounts.edit (edits : List Edit) {n : Network} {owed : RuleIndex → List StateId}
    (h : n.Accounts owed) (hedits : n.Permits edits) :
    ∃ owed', (n.edit edits).Accounts owed' ∧
      ∀ r, (owed' r).Perm (edits.filterMap (Edit.returnTo? r) ++ owed r) := by
  induction edits generalizing n owed with
  | nil => exact ⟨owed, h, fun r => List.Perm.refl _⟩
  | cons e edits ih =>
      obtain ⟨he, hedits⟩ := hedits
      obtain ⟨owed', haccounts, hperm⟩ := ih (h.apply he) hedits
      refine ⟨owed', haccounts, fun r => (hperm r).trans ?_⟩
      cases hcall : e.returnTo? r <;> simp [hcall]

/-- A call is held by the network if its source is there, and else it is a stray one. -/
theorem follows_attach_stray (n : Network) (a : Nat) (e : Edge) (r : RuleIndex) :
    ((Edit.addEdge a e).stray? n r).toList ++ (n.attach a e).follows r |>.Perm
      ((e.returnTo? r).toList ++ n.follows r) := by
  cases hs : n.state? a with
  | none => simp [Edit.stray?, hs, attach_eq_self hs]
  | some s => simpa [Edit.stray?, hs] using follows_attach hs e r

/-- After a step the network holds the call that was added, unless it is a stray one. -/
theorem follows_apply (hn : n.Registered) {e : Edit} (he : e.Permitted n) (r : RuleIndex) :
    ((e.stray? n r).toList ++ (e.apply n).follows r).Perm
      ((e.returnTo? r).toList ++ n.follows r) := by
  cases e with
  | addRule => exact List.Perm.of_eq (follows_addRule n r)
  | addState rule kind => exact List.Perm.of_eq (follows_addState n rule kind r)
  | addEdge source e =>
      cases e with
      | call target rule f level =>
          obtain ⟨hcallee, hsource⟩ := he
          obtain ⟨stop, last, hstop, hlast, hkind⟩ := hn.exists_stop (hcallee rule rfl)
          -- The edge of the stop state is no call, and its source is another state.
          have hne : stop ≠ source := by
            rintro rfl
            exact hsource ⟨last, hlast, hkind⟩
          have hreturn := follows_attach hlast (.epsilon f) r
          have hcall := follows_attach_stray (n.attach stop (.epsilon f)) source
            (.call target rule f level) r
          have hknown : (n.attach stop (.epsilon f)).state? source = n.state? source := by
            rw [state?_attach, if_neg hne]
          rw [Edit.stray?, hknown] at hcall
          show (_ ++ (n.addEdge source (.call target rule f level)).follows r).Perm _
          rw [Network.addEdge, hstop]
          exact hcall.trans (hreturn.append_left _)
      | _ => exact follows_attach_stray n source _ r

/-- Along a run, the network collects the calls of a rule that are not stray. -/
theorem follows_edit (edits : List Edit) {n : Network} {owed : RuleIndex → List StateId}
    (h : n.Accounts owed) (hedits : n.Permits edits) (r : RuleIndex) :
    (strays r n edits ++ (n.edit edits).follows r).Perm
      (edits.filterMap (Edit.returnTo? r) ++ n.follows r) := by
  induction edits generalizing n owed with
  | nil => exact List.Perm.refl _
  | cons e edits ih =>
      obtain ⟨he, hedits⟩ := hedits
      have hrest := ih (h.apply he) hedits
      have hfirst := follows_apply h.toRegistered he r
      rw [strays, List.append_assoc]
      calc _ = (e.stray? n r).toList ++
            (strays r (e.apply n) edits ++ ((e.apply n).edit edits).follows r) := rfl
        List.Perm _ ((e.stray? n r).toList ++
            (edits.filterMap (Edit.returnTo? r) ++ (e.apply n).follows r)) :=
          hrest.append_left _
        List.Perm _ (edits.filterMap (Edit.returnTo? r) ++
            ((e.stray? n r).toList ++ (e.apply n).follows r)) :=
          List.perm_append_comm_assoc _ _ _
        List.Perm _ (edits.filterMap (Edit.returnTo? r) ++
            ((e.returnTo? r).toList ++ n.follows r)) := hfirst.append_left _
        List.Perm _ ((e.returnTo? r).toList ++
            (edits.filterMap (Edit.returnTo? r) ++ n.follows r)) :=
          List.perm_append_comm_assoc _ _ _
        _ = (e :: edits).filterMap (Edit.returnTo? r) ++ n.follows r := by
          cases hcall : e.returnTo? r <;> simp [hcall]

/-- The stop state of a rule moves on to what is owed to the rule. -/
theorem Accounts.returnTargets_perm (h : n.Accounts owed) {r : RuleIndex} (hr : r < n.ruleCount) :
    (n.returnTargets r).Perm (owed r) := by
  obtain ⟨stop, s, hstop, hs, -⟩ := h.exists_stop hr
  have htargets : n.returnTargets r = s.edges.filterMap Edge.movesTo? := by
    simp [returnTargets, hstop, hs]
  have hperm := (h.returns r stop s hstop hs).filterMap Edge.movesTo?
  rwa [filterMap_movesTo?_epsilon, ← htargets] at hperm

/-- An edge of a state that is not there leaves a trace just when it is a call. -/
theorem Registered.addEdge_eq_self_iff (h : n.Registered) {a : Nat} (ha : n.state? a = none)
    {e : Edge} (hcallee : ∀ rule ∈ e.callee?, rule < n.ruleCount) :
    n.addEdge a e = n ↔ e.isCall = false := by
  cases e with
  | call target rule f level =>
      obtain ⟨stop, last, hstop, hlast, -⟩ := h.exists_stop (hcallee rule rfl)
      have hmissing : (n.attach stop (.epsilon f)).state? a = none := by
        rw [state?_attach, ha]
        split <;> rfl
      rw [Network.addEdge, hstop]
      show (n.attach stop (.epsilon f)).attach a (.call target rule f level) = n ↔ _
      rw [attach_eq_self hmissing]
      exact ⟨fun hsame => absurd hsame (attach_ne_self hlast _), fun hcall => by cases hcall⟩
  | _ => exact ⟨fun _ => rfl, fun _ => attach_eq_self ha _⟩

/-! ### Numbers that stop -/

/-- The number that is handed out is the position of the new state exactly below 2³² states. Above,
it is the number of a state that is there already. -/
theorem cappedId_eq_nextId_iff (n : Network) : n.cappedId = n.nextId ↔ n.states.size < 2 ^ 32 := by
  show (min n.states.size nat32Max : Nat) = n.states.size ↔ _
  rw [nat32Max]
  omega

/-- A state that has room for its number is added as usual. -/
theorem addStateCapped_eq (rule : RuleIndex) (kind : StateKind) (h : n.states.size < 2 ^ 32) :
    n.addStateCapped rule kind = n.addState rule kind := by
  rw [addStateCapped, addState, (cappedId_eq_nextId_iff n).mpr h]

/-- A rule takes two states, so there must be room for both. -/
theorem addRuleCapped_eq (h : n.states.size + 1 < 2 ^ 32) : n.addRuleCapped = n.addRule := by
  have hstart := (cappedId_eq_nextId_iff n).mpr (Nat.lt_of_succ_lt h)
  have hsize : (n.addState n.ruleCount .ruleStart).states.size < 2 ^ 32 := by
    rwa [size_addState]
  have hstop := (cappedId_eq_nextId_iff _).mpr hsize
  rw [nextId, size_addState] at hstop
  rw [addRuleCapped, addStateCapped_eq _ _ (Nat.lt_of_succ_lt h), addStateCapped_eq _ _ hsize,
    hstart, hstop]
  rfl

/-- A rule takes two states. -/
theorem size_addRule : n.addRule.states.size = n.states.size + 2 := by
  simp [addRule]

/-- No step takes a state away. -/
theorem size_le_size_apply (e : Edit) : n.states.size ≤ (e.apply n).states.size := by
  cases e with
  | addRule => exact Nat.le_of_add_right_le size_addRule.ge
  | addState rule kind => exact Nat.le_of_add_right_le (size_addState n rule kind).ge
  | addEdge source e => exact size_addEdge.ge

/-- Nor do several steps. -/
theorem size_le_size_edit (edits : List Edit) (n : Network) :
    n.states.size ≤ (n.edit edits).states.size := by
  induction edits generalizing n with
  | nil => exact Nat.le_refl _
  | cons e edits ih => exact (size_le_size_apply e).trans (ih (e.apply n))

/-- A step that ends with 2³² states at most has handed out positions. -/
theorem Edit.applyCapped_eq {e : Edit} (h : (e.apply n).states.size ≤ 2 ^ 32) :
    e.applyCapped n = e.apply n := by
  cases e with
  | addRule =>
      have hsize : n.states.size + 2 ≤ 2 ^ 32 := size_addRule.ge.trans h
      exact addRuleCapped_eq hsize
  | addState rule kind =>
      have hsize : n.states.size + 1 ≤ 2 ^ 32 := (size_addState n rule kind).ge.trans h
      exact addStateCapped_eq rule kind hsize
  | addEdge source e => rfl

/-- Up to 2³² states it makes no difference that the numbers of states stop. The bound on the last
network holds for all of them on the way, because no step takes a state away. -/
theorem editCapped_eq (edits : List Edit) {n : Network}
    (h : (n.edit edits).states.size ≤ 2 ^ 32) : n.editCapped edits = n.edit edits := by
  induction edits generalizing n with
  | nil => rfl
  | cons e edits ih =>
      have hstep : (e.apply n).states.size ≤ 2 ^ 32 := (size_le_size_edit edits _).trans h
      rw [editCapped, List.foldl_cons, Edit.applyCapped_eq hstep]
      exact ih h

end Edits

end Network

/-- However a network is built, the stop state of a rule moves on to where the calls of the rule go
on: those that the network holds, and those that were added to a state that was not there. Only
without the latter do the two agree. Of the edges from a state that is not there, only a call
changes the network. Up to 2³² states the network is also the one that is built with the numbers
that are handed out, which stop there. -/
theorem stops_list_the_calls {max : TokenType} {edits : List Network.Edit} {n : Network}
    (hpermits : (Network.empty max).Permits edits)
    (hbuilt : (Network.empty max).edit edits = n) :
    (∀ r < n.ruleCount,
      (n.returnTargets r).Perm ((Network.empty max).strays r edits ++ n.follows r) ∧
      ((n.returnTargets r).Perm (n.follows r) ↔ (Network.empty max).strays r edits = [])) ∧
    (∀ a e, n.state? a = none → (∀ rule ∈ e.callee?, rule < n.ruleCount) →
      (n.addEdge a e = n ↔ e.isCall = false)) ∧
    (n.states.size ≤ 2 ^ 32 → (Network.empty max).editCapped edits = n) := by
  have hempty := Network.accounts_empty max
  obtain ⟨owed, haccounts, hperm⟩ := hempty.edit edits hpermits
  have hfollows := Network.follows_edit edits hempty hpermits
  rw [hbuilt] at haccounts hfollows
  refine ⟨fun r hr => ?_, fun a e ha hcallee =>
    haccounts.toRegistered.addEdge_eq_self_iff ha hcallee, fun hsize =>
      (Network.editCapped_eq edits (hbuilt ▸ hsize)).trans hbuilt⟩
  have htargets : (n.returnTargets r).Perm
      ((Network.empty max).strays r edits ++ n.follows r) :=
    ((haccounts.returnTargets_perm hr).trans (hperm r)).trans (hfollows r).symm
  refine ⟨htargets, fun hsame => ?_, fun hnone => by rwa [hnone] at htargets⟩
  -- If the two lists agree, there is no room for stray calls.
  have hlength := htargets.symm.length_eq.trans hsame.length_eq
  rw [List.length_append] at hlength
  exact List.length_eq_zero_iff.mp (by omega)

/-- A rule with a call of another one, and a call of the latter from a state that is not there. -/
def strayEdits : List Network.Edit :=
  [.addRule, .addRule, .addState 0 .basic, .addEdge 0 (.call 2 1 4 0), .addEdge 9 (.call 2 1 0 0)]

/-- The stray call of `strayEdits` is owed to its rule, but not held by the network. -/
theorem stray_edits_are_listed :
    (Network.empty 1).Permits strayEdits ∧
      (((Network.empty 1).edit strayEdits).returnTargets 1).Perm [0, 4] ∧
      ¬ (((Network.empty 1).edit strayEdits).returnTargets 1).Perm [4] ∧
      ((Network.empty 1).edit strayEdits).addEdge 9 (.epsilon 4) =
        (Network.empty 1).edit strayEdits ∧
      (Network.empty 1).editCapped strayEdits = (Network.empty 1).edit strayEdits := by
  have hpermits : (Network.empty 1).Permits strayEdits := by decide
  have hcalls : (Network.empty 1).strays 1 strayEdits = [0] ∧
      ((Network.empty 1).edit strayEdits).follows 1 = [4] := by decide
  obtain ⟨hlisted, hmissing, hcapped⟩ := stops_list_the_calls hpermits rfl
  obtain ⟨hperm, hagree⟩ := hlisted 1 (by decide)
  rw [hcalls.1, hcalls.2] at hperm
  rw [hcalls.1, hcalls.2] at hagree
  exact ⟨hpermits, hperm, fun hsame => absurd (hagree.mp hsame) (by decide),
    (hmissing 9 (.epsilon 4) (by decide) (by decide)).mpr rfl, hcapped (by decide)⟩

/-- A call from a state that is not there leaves an edge behind, though the network does not hold
the call. -/
theorem stray_call_leaves_an_edge :
    (Network.empty 1).Permits [.addRule, .addEdge 2 (.call 0 0 0 0)] ∧
      (Network.empty 1).addRule.state? 2 = none ∧
      ((Network.empty 1).addRule.addEdge 2 (.call 0 0 0 0)).returnTargets 0 = [0] ∧
      ((Network.empty 1).addRule.addEdge 2 (.call 0 0 0 0)).follows 0 = [] ∧
      (Network.empty 1).addRule.addEdge 2 (.call 0 0 0 0) ≠ (Network.empty 1).addRule := by
  decide

end Caret
