import Caret.Proofs.ReturnEdges

/-!
# `Caret.Proofs.Construction`: the steps in which a network is built

`Network.Step` lists what the compiler does to a network: it adds a state, or it adds an edge to a
state that is open, which means that it has no edges yet and is no decision. Only a decision gets
more than one edge, and its edges read nothing. A symbol is read on the way to a new state, and a
call goes on at a new state.

What such a step keeps up is stated once (`Step.evolves`): the states and edges stay regular
(`Network.Regular`), and the stop state of a rule has one edge for each call of the rule
(`Network.Balanced`). `Expr.compile_steps` shows that compiling takes no other steps, and so
`Network.ofRules_sound` holds of the network of every list of rules.
-/

set_option autoImplicit false

namespace Caret

/-- Whether the edge reads nothing and leads on within its rule. -/
def Edge.isMove : Edge → Bool
  | .epsilon _ => true
  | .gate _ _ => true
  | _ => false

/-- Moves are no calls. -/
theorem Edge.isCall_of_isMove {e : Edge} (h : e.isMove = true) : e.isCall = false := by
  cases e with
  | call _ _ _ _ => cases h
  | _ => rfl

namespace Network

/-! ### Regular networks -/

/-- Nothing leaves the state yet, and one edge may. -/
def Open (n : Network) (a : Nat) : Prop :=
  ∃ s, n.state? a = some s ∧ s.edges = [] ∧ (s.kind = .basic ∨ s.kind = .ruleStart)

/-- States stand at the positions that they carry, their kinds say what they are for, and edges
leave and enter them accordingly. -/
structure Regular (n : Network) : Prop where
  id_eq : ∀ a s, n.state? a = some s → s.id = a
  start_iff : ∀ a, n.HasKind .ruleStart a ↔ ∃ r, n.start? r = some a
  stop_iff : ∀ a, n.HasKind .ruleStop a ↔ ∃ r, n.stop? r = some a
  fork : ∀ a s, n.state? a = some s → s.kind ≠ .ruleStop → s.kind ≠ .decision →
    s.edges.length ≤ 1
  decision : ∀ a s, n.state? a = some s → s.kind = .decision → ∀ e ∈ s.edges, e.isMove = true
  follow_kind : ∀ f, n.IsFollow f → n.HasKind .basic f
  read_inner : ∀ a s, n.state? a = some s → ∀ t l, Edge.read t l ∈ s.edges → n.Inner t

/-- The stop state of a rule has an edge for each call of the rule, which leads to where the caller
goes on, and no others. -/
def Balanced (n : Network) : Prop :=
  ∀ r stop s, n.stop? r = some stop → n.state? stop = some s →
    s.edges.Perm ((n.follows r).map Edge.epsilon)

/-- A regular network with its return edges. -/
structure Sound (n : Network) : Prop extends n.Regular where
  balanced : n.Balanced

section Keep

variable {n : Network} {a : Nat} {e : Edge}

/-- An open state is one that has no edges. -/
theorem Open.has (h : n.Open a) : n.Has a [] := by
  obtain ⟨s, hs, hnil, hkind⟩ := h
  refine ⟨s, hs, ?_, hnil⟩
  rcases hkind with hkind | hkind <;> rw [hkind] <;> decide

/-- A new state of another kind does not matter to the question which states are of a kind. -/
theorem hasKind_addState_iff (rule : RuleIndex) {kind k : StateKind} (hne : kind ≠ k) (b : Nat) :
    (n.addState rule kind).HasKind k b ↔ n.HasKind k b := by
  constructor
  · rintro ⟨s, hs, hk⟩
    rw [state?_addState] at hs
    split at hs
    · cases hs
      exact absurd hk hne
    · exact ⟨s, hs, hk⟩
  · rintro ⟨s, hs, hk⟩
    exact ⟨s, state?_addState_of hs rule kind, hk⟩

/-- A new state has no edges, so it disturbs none. -/
theorem Regular.addState (h : n.Regular) (rule : RuleIndex) {kind : StateKind}
    (hkind : kind = .basic ∨ kind = .decision) : (n.addState rule kind).Regular := by
  -- The new state is neither a start nor a stop state, so these stay as they are.
  have hstart : kind ≠ .ruleStart := by rcases hkind with rfl | rfl <;> decide
  have hstop : kind ≠ .ruleStop := by rcases hkind with rfl | rfl <;> decide
  exact
    { id_eq := by
        intro a s hs
        rw [state?_addState] at hs
        split at hs
        · rename_i heq
          cases hs
          exact heq.symm
        · exact h.id_eq a s hs
      start_iff := fun a => (hasKind_addState_iff rule hstart a).trans (h.start_iff a)
      stop_iff := fun a => (hasKind_addState_iff rule hstop a).trans (h.stop_iff a)
      fork := by
        intro a s hs
        rw [state?_addState] at hs
        split at hs
        · cases hs
          exact fun _ _ => Nat.zero_le 1
        · exact h.fork a s hs
      decision := by
        intro a s hs
        rw [state?_addState] at hs
        split at hs
        · cases hs
          simp
        · exact h.decision a s hs
      follow_kind := fun f hf =>
        (h.follow_kind f ((isFollow_addState n rule kind f).mp hf)).addState rule kind
      read_inner := by
        intro a s hs t l hmem
        rw [state?_addState] at hs
        split at hs
        · cases hs
          cases hmem
        · exact (grows_addState n rule kind hstop).inner (h.read_inner a s hs t l hmem) }

/-- An edge keeps a network regular on these terms: its source is open, or the edge reads nothing
and its source is a decision or a stop state, a symbol is read on the way to an inner state, and a
call goes on at a state to which nothing is read. -/
theorem Regular.attach (h : n.Regular) (he : n.Open a ∨
      e.isMove = true ∧ (n.HasKind .decision a ∨ n.HasKind .ruleStop a))
    (hread : ∀ t l, e = .read t l → n.Inner t)
    (hcall : ∀ target rule f level, e = .call target rule f level → n.HasKind .basic f ∧
      ∀ b s, n.state? b = some s → ∀ t l, Edge.read t l ∈ s.edges → t ≠ f) :
    (n.attach a e).Regular := by
  -- An inner state stays inner unless the edge is a call that goes on there.
  have hfollow : ∀ t, n.Inner t → (∀ target rule level, e ≠ .call target rule t level) →
      (n.attach a e).Inner t := by
    intro t hinner hne
    refine ⟨by rw [size_attach]; exact hinner.lt, fun hf => ?_, hinner.not_start⟩
    rcases isFollow_of_attach n a e hf with hf | ⟨target, rule, level, heq⟩
    · exact hinner.not_follow hf
    · exact hne target rule level heq
  refine
    { id_eq := ?_
      start_iff := fun b => (hasKind_attach_iff _ b).trans (h.start_iff b)
      stop_iff := fun b => (hasKind_attach_iff _ b).trans (h.stop_iff b)
      fork := ?_
      decision := ?_
      follow_kind := ?_
      read_inner := ?_ }
  · intro b s hs
    rw [state?_attach] at hs
    split at hs
    · obtain ⟨s', hs', rfl⟩ := Option.map_eq_some_iff.mp hs
      exact h.id_eq b s' hs'
    · exact h.id_eq b s hs
  · intro b s hs hstop hdecision
    rw [state?_attach] at hs
    split at hs
    · rename_i heq
      obtain ⟨s', hs', rfl⟩ := Option.map_eq_some_iff.mp hs
      subst heq
      -- The state with the new edge had none before, or it may have several.
      rcases he with ⟨s'', hs'', hnil, -⟩ | ⟨-, ⟨s'', hs'', hk⟩ | ⟨s'', hs'', hk⟩⟩
      · cases hs'.symm.trans hs''
        simp [hnil]
      · cases hs'.symm.trans hs''
        exact absurd hk hdecision
      · cases hs'.symm.trans hs''
        exact absurd hk hstop
    · exact h.fork b s hs hstop hdecision
  · intro b s hs hdecision e' he'
    rw [state?_attach] at hs
    split at hs
    · rename_i heq
      obtain ⟨s', hs', rfl⟩ := Option.map_eq_some_iff.mp hs
      subst heq
      rcases List.mem_append.mp he' with he' | he'
      · exact h.decision a s' hs' hdecision e' he'
      · rw [List.mem_singleton.mp he']
        rcases he with ⟨s'', hs'', -, hk⟩ | ⟨hmove, -⟩
        · -- An open state is no decision.
          cases hs'.symm.trans hs''
          have hdecision' : s'.kind = .decision := hdecision
          rw [hdecision'] at hk
          simp at hk
        · exact hmove
    · exact h.decision b s hs hdecision e' he'
  · intro f hf
    rw [hasKind_attach_iff]
    rcases isFollow_of_attach n a e hf with hf | ⟨target, rule, level, heq⟩
    · exact h.follow_kind f hf
    · exact (hcall _ _ _ _ heq).1
  · intro b s hs t l hmem
    obtain ⟨s', hs', -, hedges⟩ := exists_of_state?_attach n a e hs
    rcases hedges _ hmem with hold | ⟨heq, -⟩
    · refine hfollow t (h.read_inner b s' hs' t l hold) ?_
      intro target rule level heq
      exact (hcall _ _ _ _ heq).2 b s' hs' t l hold rfl
    · refine hfollow t (hread t l heq.symm) ?_
      rintro target rule level rfl
      cases heq

/-- A new state neither calls nor is called. -/
theorem Balanced.addState (h : n.Balanced) (ht : n.Tidy) (rule : RuleIndex) (kind : StateKind) :
    (n.addState rule kind).Balanced := by
  refine (ReturnsTo.addState h ht.registered rule kind).perm fun r => ?_
  rw [follows_addState]

/-- An edge within a rule leaves calls and stop states as they are. -/
theorem Balanced.attach (h : n.Balanced) (ht : n.Tidy) (hcall : e.isCall = false)
    (ha : n.Has a [] ∨ n.HasKind .decision a) : (n.attach a e).Balanced := by
  obtain ⟨source, hsource, hkind⟩ : ∃ source, n.state? a = some source ∧
      source.kind ≠ .ruleStop := by
    rcases ha with ⟨source, hsource, hne, -⟩ | ⟨source, hsource, hdecision⟩
    · exact ⟨source, hsource, hne⟩
    · exact ⟨source, hsource, by rw [hdecision]; decide⟩
  refine (ReturnsTo.attach h ht.registered (not_hasKind hsource hkind) e).perm fun r => ?_
  have hperm := follows_attach hsource e r
  rw [Edge.returnTo?_eq_none hcall] at hperm
  exact hperm.symm

/-- A call and the edge that returns from it are added together. -/
theorem Balanced.call (h : n.Balanced) (ht : n.Tidy) {callee : RuleIndex} {stop f target : Nat}
    {level : Int} {first : State} (hstop : n.stop? callee = some stop)
    (hfirst : n.state? a = some first) (hkind : first.kind ≠ .ruleStop) :
    ((n.attach stop (.epsilon f)).attach a (.call target callee f level)).Balanced := by
  have hlt : callee < n.ruleCount := by
    rw [ruleCount, ← ht.stops_size]
    exact (Array.getElem?_eq_some_iff.mp hstop).1
  have hedge : n.addEdge a (.call target callee f level) =
      (n.attach stop (.epsilon f)).attach a (.call target callee f level) := by
    rw [addEdge, hstop]
  have hnot := not_hasKind hfirst hkind
  have hreturns := ReturnsTo.addEdge (e := .call target callee f level) h ht.registered
    (fun rule hrule => Option.some.inj hrule ▸ hlt) hnot
  have hfollows := follows_apply (e := .addEdge a (.call target callee f level)) ht.registered
    ⟨fun rule hrule => Option.some.inj hrule ▸ hlt, hnot⟩
  rw [← hedge]
  refine hreturns.perm fun r => ?_
  -- The source is there, so the call is held by the network.
  simpa [Edit.stray?, Edit.returnTo?, Edit.apply, hfirst] using (hfollows r).symm

end Keep

/-! ### Steps -/

/-- What the compiler does to a network. -/
inductive Step : Network → Network → Prop where
  | state {n : Network} (rule : RuleIndex) {kind : StateKind} :
      kind = .basic ∨ kind = .decision → Step n (n.addState rule kind)
  | move {n : Network} {a : Nat} {e : Edge} : n.Open a ∨ n.HasKind .decision a →
      e.isMove = true → n.Inner e.target → Step n (n.addEdge a e)
  | read {n : Network} {a : Nat} (rule : RuleIndex) (l : Label) :
      n.Open a → Step n (n.read rule a l).network
  | call {n : Network} {a : Nat} (rule : RuleIndex) {callee : RuleIndex} (level : Int) :
      n.Open a → callee < n.starts.size → Step n (n.call rule a callee level).network

/-- Any number of steps. -/
abbrev Steps : Network → Network → Prop := Relation.ReflTransGen Step

/-- What steps keep: the network stays tidy and sound, and states keep their kinds and stay
inner. -/
structure Evolves (n m : Network) : Prop where
  grows : ∃ touched, n.Grows m touched
  tidy : m.Tidy
  sound : m.Sound
  kind : ∀ k a, n.HasKind k a → m.HasKind k a

section Steps

variable {n m : Network} {a : Nat}

/-- A state stays open when others are added. -/
theorem Open.addState (h : n.Open a) (rule : RuleIndex) (kind : StateKind) :
    (n.addState rule kind).Open a := by
  obtain ⟨s, hs, hnil, hkind⟩ := h
  exact ⟨s, state?_addState_of hs rule kind, hnil, hkind⟩

/-- What adding a state keeps. -/
theorem evolves_addState (ht : n.Tidy) (hn : n.Sound) (rule : RuleIndex) {kind : StateKind}
    (hkind : kind = .basic ∨ kind = .decision) : n.Evolves (n.addState rule kind) where
  grows := ⟨_, grows_addState n rule kind (by rcases hkind with rfl | rfl <;> decide)⟩
  tidy := (grows_addState n rule kind (by rcases hkind with rfl | rfl <;> decide)).tidy ht
  sound := ⟨hn.toRegular.addState rule hkind, hn.balanced.addState ht rule kind⟩
  kind _ _ h := h.addState rule kind

/-- What adding an edge that moves on keeps. Its target must be inner, so that no call goes on
there. -/
theorem evolves_move {e : Edge} (ht : n.Tidy) (hn : n.Sound)
    (ha : n.Open a ∨ n.HasKind .decision a) (hmove : e.isMove = true) (hinner : n.Inner e.target) :
    n.Evolves (n.addEdge a e) := by
  have hcall := Edge.isCall_of_isMove hmove
  -- The edges of a decision are no calls, and an open state has none.
  obtain ⟨edges, hhas, hedges⟩ : ∃ edges, n.Has a edges ∧ ∀ e' ∈ edges, e'.isCall = false := by
    rcases ha with ha | ⟨s, hs, hdecision⟩
    · exact ⟨[], ha.has, by simp⟩
    · exact ⟨s.edges, ⟨s, hs, by rw [hdecision]; decide, rfl⟩, fun e' he' =>
        Edge.isCall_of_isMove (hn.decision a s hs hdecision e' he')⟩
  have hgrows := grows_addEdge hcall hhas hedges fun _ => hinner
  have hregular : (n.attach a e).Regular := by
    refine hn.toRegular.attach (ha.imp_right fun hd => ⟨hmove, Or.inl hd⟩) ?_ ?_
    · rintro t l rfl
      cases hmove
    · rintro target rule f level rfl
      cases hmove
  refine ⟨⟨_, hgrows⟩, hgrows.tidy ht, ?_, ?_⟩
  · rw [addEdge_eq_attach hcall]
    exact ⟨hregular, hn.balanced.attach ht hcall (ha.imp_left Open.has)⟩
  · intro k b hb
    rw [addEdge_eq_attach hcall]
    exact (hasKind_attach_iff k b).mpr hb

/-- What reading a symbol keeps. The state behind it is new, so nothing leads there but this
edge. -/
theorem evolves_read (ht : n.Tidy) (hn : n.Sound) (ha : n.Open a) (rule : RuleIndex) (l : Label) :
    n.Evolves (n.read rule a l).network := by
  obtain ⟨hgrows, -, -, -⟩ := extend_spec (e := .read n.states.size l) rule .basic (by decide) rfl
    rfl ht ha.has (by simp)
  have hstate := evolves_addState ht hn rule (.inl rfl : StateKind.basic = .basic ∨ _)
  have hopen := ha.addState rule .basic
  have hsound : ((n.addState rule .basic).attach a (.read n.states.size l)).Sound := by
    refine ⟨hstate.sound.toRegular.attach (.inl hopen) ?_ ?_,
      hstate.sound.balanced.attach hstate.tidy rfl (.inl hopen.has)⟩
    · intro t l' heq
      cases heq
      exact inner_addState n rule .basic ht
    · intro target r f level heq
      cases heq
  refine ⟨⟨_, hgrows⟩, hgrows.tidy ht, hsound, fun k b hb => ?_⟩
  exact (hasKind_attach_iff k b).mpr (hstate.kind k b hb)

/-- What a call keeps. It is the only step that touches two states: the source of the call, and the
stop state of the called rule. -/
theorem evolves_call {callee : RuleIndex} (ht : n.Tidy) (hn : n.Sound) (ha : n.Open a)
    (hcallee : callee < n.starts.size) (rule : RuleIndex) (level : Int) :
    n.Evolves (n.call rule a callee level).network := by
  obtain ⟨start, hstart, -, hgrows, -⟩ := call_spec rule level ht ha.has hcallee
  obtain ⟨stop, hstop⟩ : ∃ stop, n.stop? callee = some stop :=
    ⟨_, Array.getElem?_eq_getElem (ht.stops_size ▸ hcallee)⟩
  obtain ⟨last, hlast, hlastKind⟩ := ht.stop_kind callee stop hstop
  obtain ⟨first, hfirst, hnil, hfirstKind⟩ := id ha
  -- The source is open, so it is no stop state.
  have hne : a ≠ stop := by
    rintro rfl
    cases hfirst.symm.trans hlast
    rw [hlastKind] at hfirstKind
    simp at hfirstKind
  have hstate := evolves_addState ht hn rule (.inl rfl : StateKind.basic = .basic ∨ _)
  have hlast' := state?_addState_of hlast rule .basic
  -- First the stop state gets its edge, then the source gets the call.
  have hreturning : ((n.addState rule .basic).attach stop (.epsilon n.states.size)).Regular := by
    refine hstate.sound.toRegular.attach (.inr ⟨rfl, .inr ⟨last, hlast', hlastKind⟩⟩) ?_ ?_
    · intro t l heq
      cases heq
    · intro target r f l heq
      cases heq
  have hopen : ((n.addState rule .basic).attach stop (.epsilon n.states.size)).Open a := by
    refine ⟨first, ?_, hnil, hfirstKind⟩
    rw [state?_attach, if_neg (Ne.symm hne), state?_addState_of hfirst]
  have hregular : (n.call rule a callee level).network.Regular := by
    rw [call_eq a rule level hstart hstop]
    refine hreturning.attach (.inl hopen) (fun t l heq => by cases heq) ?_
    rintro target r f l heq
    cases heq
    refine ⟨(hasKind_attach_iff _ _).mpr ⟨_, by rw [state?_addState, if_pos rfl], rfl⟩, ?_⟩
    -- What is read leads to states that were there before.
    intro b s hs t l hmem
    obtain ⟨s', hs', -, hedges⟩ := exists_of_state?_attach _ _ _ hs
    rcases hedges _ hmem with hold | ⟨heq, -⟩
    · rw [state?_addState] at hs'
      split at hs'
      · cases hs'
        cases hold
      · exact Nat.ne_of_lt (hn.read_inner b s' hs' t l hold).lt
    · cases heq
  have hbalanced : (n.call rule a callee level).network.Balanced := by
    rw [call_eq a rule level hstart hstop]
    refine hstate.sound.balanced.call hstate.tidy hstop (state?_addState_of hfirst rule .basic) ?_
    rcases hfirstKind with hk | hk <;> rw [hk] <;> decide
  refine ⟨⟨_, hgrows⟩, hgrows.tidy ht, ⟨hregular, hbalanced⟩, fun k b hb => ?_⟩
  rw [call_eq a rule level hstart hstop]
  exact (hasKind_attach_iff k b).mpr ((hasKind_attach_iff k b).mpr (hstate.kind k b hb))

/-- Each step keeps all of it. -/
theorem Step.evolves (h : n.Step m) (ht : n.Tidy) (hn : n.Sound) : n.Evolves m := by
  cases h with
  | state rule hkind => exact evolves_addState ht hn rule hkind
  | move ha hmove hinner => exact evolves_move ht hn ha hmove hinner
  | read rule l ha => exact evolves_read ht hn ha rule l
  | call rule level ha hcallee => exact evolves_call ht hn ha hcallee rule level

/-- No step at all. -/
theorem Evolves.refl (ht : n.Tidy) (hn : n.Sound) : n.Evolves n :=
  ⟨⟨_, Grows.refl n⟩, ht, hn, fun _ _ => id⟩

/-- One after the other. -/
theorem Evolves.trans {k : Network} (h : n.Evolves m) (h' : m.Evolves k) : n.Evolves k := by
  obtain ⟨touched, hgrows⟩ := h.grows
  obtain ⟨touched', hgrows'⟩ := h'.grows
  exact ⟨⟨_, hgrows.trans hgrows'⟩, h'.tidy, h'.sound, fun k a ha => h'.kind k a (h.kind k a ha)⟩

/-- Inner states stay inner. -/
theorem Evolves.inner (h : n.Evolves m) {b : Nat} (hb : n.Inner b) : m.Inner b := by
  obtain ⟨touched, hgrows⟩ := h.grows
  exact hgrows.inner hb

/-- A network that is ready for compiling stays so. -/
theorem Evolves.ready {u : Universe} {count : Nat} (h : n.Evolves m) (hn : n.Ready u count) :
    m.Ready u count := by
  obtain ⟨touched, hgrows⟩ := h.grows
  exact hgrows.ready hn

/-- What one step keeps, any number of steps keeps. -/
theorem Steps.evolves (h : n.Steps m) (ht : n.Tidy) (hn : n.Sound) : n.Evolves m := by
  induction h with
  | refl => exact .refl ht hn
  | tail _ hstep ih => exact ih.trans (hstep.evolves ih.tidy ih.sound)

/-- A call goes on at a state of the kind that can be open. -/
theorem hasKind_call_exit (rule callee : RuleIndex) (level : Int) (ht : n.Tidy) (ha : n.Open a)
    (hcallee : callee < n.starts.size) : (n.call rule a callee level).network.HasKind .basic
      (n.call rule a callee level).exit := by
  obtain ⟨start, hstart, -⟩ := call_spec rule level ht ha.has hcallee
  obtain ⟨stop, hstop⟩ : ∃ stop, n.stop? callee = some stop :=
    ⟨_, Array.getElem?_eq_getElem (ht.stops_size ▸ hcallee)⟩
  rw [call_eq a rule level hstart hstop]
  refine (hasKind_attach_iff _ _).mpr ((hasKind_attach_iff _ _).mpr ?_)
  exact ⟨_, by rw [state?_addState, if_pos rfl], rfl⟩

/-! ### The steps of a piece -/

/-- The state is of a kind that can be open. -/
def Plain (n : Network) (a : Nat) : Prop := n.HasKind .basic a ∨ n.HasKind .ruleStart a

/-- States keep their kinds. -/
theorem Evolves.plain (h : n.Evolves m) (ha : n.Plain a) : m.Plain a :=
  ha.imp (h.kind _ a) (h.kind _ a)

/-- An open state is of the right kind. -/
theorem Open.plain (h : n.Open a) : n.Plain a := by
  obtain ⟨s, hs, -, hkind⟩ := h
  exact hkind.imp (⟨s, hs, ·⟩) (⟨s, hs, ·⟩)

/-- With no edges and of the right kind, a state is open. -/
theorem Has.open (h : n.Has a []) (hplain : n.Plain a) : n.Open a := by
  obtain ⟨s, hs, -, hnil⟩ := h
  refine ⟨s, hs, hnil, hplain.imp ?_ ?_⟩
  · rintro ⟨s', hs', hk⟩
    cases hs.symm.trans hs'
    exact hk
  · rintro ⟨s', hs', hk⟩
    cases hs.symm.trans hs'
    exact hk

/-- The exit of a piece is open if it is of the right kind. -/
theorem Piece.open {g : Growth} {P : Network → Prop} (h : n.Piece a g P)
    (hplain : g.network.Plain g.exit) : g.network.Open g.exit :=
  h.exit_has.open hplain

/-- A new state behind an edge that reads nothing. It is of the kind that was asked for, an edge may
lead there, and none leaves it. -/
theorem steps_extend {e : Edge} (ht : n.Tidy) (hn : n.Sound) (rule : RuleIndex) {kind : StateKind}
    (hkind : kind = .basic ∨ kind = .decision) (ha : n.Open a ∨ n.HasKind .decision a)
    (hmove : e.isMove = true) (htarget : e.target = n.states.size) :
    n.Steps ((n.addState rule kind).addEdge a e) ∧
      ((n.addState rule kind).addEdge a e).HasKind kind n.states.size ∧
      ((n.addState rule kind).addEdge a e).Inner n.states.size ∧
      ((n.addState rule kind).addEdge a e).Has n.states.size [] := by
  have hstate : n.Step (n.addState rule kind) := .state rule hkind
  have hadded := hstate.evolves ht hn
  have hinner := inner_addState n rule kind ht
  -- The state comes before the edge, as an edge must lead to a state that is there.
  have hedge : (n.addState rule kind).Step ((n.addState rule kind).addEdge a e) :=
    .move (ha.imp (·.addState rule kind) (·.addState rule kind)) hmove (htarget ▸ hinner)
  have hevolves := hedge.evolves hadded.tidy hadded.sound
  have hlt : a < n.states.size := by
    rcases ha with ⟨s, hs, -⟩ | ⟨s, hs, -⟩
    · exact state?_lt hs
    · exact state?_lt hs
  refine ⟨.tail (.single hstate) hedge,
    hevolves.kind _ _ ⟨_, by rw [state?_addState, if_pos rfl], rfl⟩, hevolves.inner hinner, ?_⟩
  rw [addEdge_eq_attach (Edge.isCall_of_isMove hmove)]
  refine ⟨⟨n.states.size, rule, kind, []⟩, ?_, ?_, rfl⟩
  · rw [state?_attach, if_neg (Nat.ne_of_lt hlt), state?_addState, if_pos rfl]
  · show kind ≠ .ruleStop
    rcases hkind with rfl | rfl <;> decide

/-- Moving on to a new state takes two steps. -/
theorem steps_link (ht : n.Tidy) (hn : n.Sound) (rule : RuleIndex) {kind : StateKind}
    (hkind : kind = .basic ∨ kind = .decision) (ha : n.Open a ∨ n.HasKind .decision a) :
    n.Steps (n.link rule a kind).network ∧
      (n.link rule a kind).network.HasKind kind n.states.size ∧
      (n.link rule a kind).network.Inner n.states.size ∧
      (n.link rule a kind).network.Has n.states.size [] :=
  steps_extend (e := .epsilon n.states.size) ht hn rule hkind ha rfl rfl

/-- Giving a decision its two edges takes two steps, in whichever order. -/
theorem steps_decide {d i o : Nat} (greedy : Bool) (ht : n.Tidy) (hn : n.Sound)
    (hd : n.HasKind .decision d) (hi : n.Inner i) (ho : n.Inner o) :
    n.Steps (n.decide d i o greedy) := by
  have htwo : ∀ {b c : Nat}, n.Inner b → n.Inner c → n.Steps (n.choose d b c) := by
    intro b c hb hc
    have hfirst : n.Step (n.addEdge d (.epsilon b)) := .move (.inr hd) rfl hb
    have hevolves := hfirst.evolves ht hn
    have hsecond : (n.addEdge d (.epsilon b)).Step (n.choose d b c) :=
      .move (.inr (hevolves.kind _ _ hd)) rfl (hevolves.inner hc)
    exact .tail (.single hfirst) hsecond
  rw [decide]
  split
  · exact htwo hi ho
  · exact htwo ho hi

/-- The start of an optional or repeated part, and the kinds of its states. -/
theorem steps_branch (ht : n.Tidy) (hn : n.Sound) (ha : n.Open a) (rule : RuleIndex)
    (greedy : Bool) : n.Steps (n.branch rule a greedy) ∧
      (n.branch rule a greedy).HasKind .basic (n.states.size + 1) ∧
      (n.branch rule a greedy).HasKind .basic (n.states.size + 2) := by
  obtain ⟨hlink, hd, hdInner, -⟩ := steps_link ht hn rule (.inr rfl : StateKind.decision = _ ∨ _)
    (.inl ha)
  have hsize := size_link rule n a .decision
  have hlinked := hlink.evolves ht hn
  -- The state inside and the state past the part, and then the two ways.
  have hbranch : n.branch rule a greedy =
      (((n.link rule a .decision).network.addState rule .basic).addState rule .basic).decide
        n.states.size (n.states.size + 1) (n.states.size + 2) greedy := rfl
  rw [hbranch]
  generalize (n.link rule a .decision).network = linked at *
  have hone := evolves_addState hlinked.tidy hlinked.sound rule (.inl rfl : StateKind.basic = _ ∨ _)
  have htwo := evolves_addState hone.tidy hone.sound rule (.inl rfl : StateKind.basic = _ ∨ _)
  have hi := inner_addState linked rule .basic hlinked.tidy
  have ho := inner_addState (linked.addState rule .basic) rule .basic hone.tidy
  have hiKind : (linked.addState rule .basic).HasKind .basic linked.states.size :=
    ⟨_, by rw [state?_addState, if_pos rfl], rfl⟩
  have hoKind : ((linked.addState rule .basic).addState rule .basic).HasKind .basic
      (linked.addState rule .basic).states.size :=
    ⟨_, by rw [state?_addState, if_pos rfl], rfl⟩
  rw [size_addState, hsize] at ho hoKind
  rw [hsize] at hi hiKind
  have hdecide := steps_decide greedy htwo.tidy htwo.sound (htwo.kind _ _ (hone.kind _ _ hd))
    (htwo.inner hi) ho
  have hlast := hdecide.evolves htwo.tidy htwo.sound
  refine ⟨((hlink.tail (.state rule (.inl rfl))).tail (.state rule (.inl rfl))).trans hdecide, ?_,
    hlast.kind _ _ hoKind⟩
  exact hlast.kind _ _ (htwo.kind _ _ hiKind)

/-- An optional or repeated part: behind its piece an edge leads to the decision or to the state
past the part. -/
theorem steps_part {g : Growth} {t : Nat} (ht : n.Tidy) (hn : n.Sound) (ha : n.Open a)
    (rule : RuleIndex) (greedy : Bool) (htarget : t = n.states.size ∨ t = n.states.size + 2)
    (hbody : (n.branch rule a greedy).Steps g.network) (hexit : g.network.Open g.exit) :
    n.Steps (g.network.addEdge g.exit (.epsilon t)) ∧
      (g.network.addEdge g.exit (.epsilon t)).Plain (n.states.size + 2) := by
  obtain ⟨hbranch, -, houtside⟩ := steps_branch ht hn ha rule greedy
  have hbranched := branched_branch rule greedy ht ha.has
  have hstart := hbranch.evolves ht hn
  have hpiece := hbody.evolves hstart.tidy hstart.sound
  -- Both targets were made together with the decision, in front of the piece.
  have hinner : (n.branch rule a greedy).Inner t := by
    rcases htarget with rfl | rfl
    · exact hbranched.inner_decision
    · exact hbranched.inner_outside
  have hback : g.network.Step (g.network.addEdge g.exit (.epsilon t)) :=
    .move (.inl hexit) rfl (hpiece.inner hinner)
  have hend := hback.evolves hpiece.tidy hpiece.sound
  exact ⟨(hbranch.trans hbody).tail hback, .inl (hend.kind _ _ (hpiece.kind _ _ houtside))⟩

end Steps

end Network

/-! ### Compiling takes steps -/

section Compile

open Network

variable {u : Universe} {count : Nat} (rule : RuleIndex)

mutual

/-- Compiling an expression takes steps, from an open state to a state that can be open. -/
theorem Expr.compile_steps : ∀ (e : Expr Label RuleIndex) {n : Network} {a : Nat},
    n.Ready u count → n.Sound → n.Open a → e.Fits (Label.Proper u) (· < count) →
      n.Steps (e.compile rule ⟨n, a⟩).network ∧
        (e.compile rule ⟨n, a⟩).network.Plain (e.compile rule ⟨n, a⟩).exit
  | .terminal l, n, a, hn, hs, ha, _ => by
      have hread : n.Step (n.read rule a l).network := .read rule l ha
      refine ⟨.single hread, .inl ?_⟩
      show ((n.addState rule .basic).attach a (.read n.states.size l)).HasKind .basic n.states.size
      exact (hasKind_attach_iff _ _).mpr ⟨_, by rw [state?_addState, if_pos rfl], rfl⟩
  | .rule callee, n, a, hn, hs, ha, hfits => by
      have hcallee : callee < n.starts.size := by
        rw [hn.count_eq]
        exact hfits
      have hexit := hasKind_call_exit rule callee 0 hn.tidy ha hcallee
      exact ⟨.single (.call rule 0 ha hcallee), .inl hexit⟩
  | .empty, n, a, hn, hs, ha, _ => ⟨.refl, ha.plain⟩
  | .seq es, n, a, hn, hs, ha, hfits => Expr.compileSeq_steps es hn hs ha hfits
  | .alt es, n, a, hn, hs, ha, hfits => by
      obtain ⟨hlink, hd, -, -⟩ := steps_link hn.tidy hs rule
        (.inr rfl : StateKind.decision = _ ∨ _) (.inl ha)
      have hlinked := hlink.evolves hn.tidy hs
      have hjoin := evolves_addState hlinked.tidy hlinked.sound rule
        (.inl rfl : StateKind.basic = .basic ∨ _)
      have hinner := inner_addState (n.link rule a .decision).network rule .basic hlinked.tidy
      have hkind : ((n.link rule a .decision).network.addState rule .basic).HasKind .basic
          (n.link rule a .decision).network.states.size :=
        ⟨_, by rw [state?_addState, if_pos rfl], rfl⟩
      rw [size_link] at hinner hkind
      have hrest := Expr.compileAlt_steps es (hjoin.ready (hlinked.ready hn)) hjoin.sound
        (hjoin.kind _ _ hd) hinner hfits
      rw [compile_alt]
      refine ⟨(hlink.tail (.state rule (.inl rfl))).trans hrest, .inl ?_⟩
      exact (hrest.evolves hjoin.tidy hjoin.sound).kind _ _ hkind
  | .optional body greedy, n, a, hn, hs, ha, hfits => by
      obtain ⟨hbranch, hinside, -⟩ := steps_branch hn.tidy hs ha rule greedy
      have hstart := hbranch.evolves hn.tidy hs
      have hopen := (branched_branch rule greedy hn.tidy ha.has).inside.open (.inl hinside)
      obtain ⟨hbody, hplain⟩ := Expr.compile_steps body (hstart.ready hn) hstart.sound hopen hfits
      have hexit := (body.compile_piece rule (hstart.ready hn) hopen.has hfits).open hplain
      rw [compile_optional]
      exact steps_part hn.tidy hs ha rule greedy (.inr rfl) hbody hexit
  | .star body greedy, n, a, hn, hs, ha, hfits => by
      obtain ⟨hbranch, hinside, -⟩ := steps_branch hn.tidy hs ha rule greedy
      have hstart := hbranch.evolves hn.tidy hs
      have hopen := (branched_branch rule greedy hn.tidy ha.has).inside.open (.inl hinside)
      obtain ⟨hbody, hplain⟩ := Expr.compile_steps body (hstart.ready hn) hstart.sound hopen hfits
      have hexit := (body.compile_piece rule (hstart.ready hn) hopen.has hfits).open hplain
      rw [compile_star]
      exact steps_part hn.tidy hs ha rule greedy (.inl rfl) hbody hexit
  | .plus body greedy, n, a, hn, hs, ha, hfits => by
      obtain ⟨hlink, hkind, hinside, hhas⟩ := steps_link hn.tidy hs rule
        (.inl rfl : StateKind.basic = _ ∨ _) (.inl ha)
      have hlinked := hlink.evolves hn.tidy hs
      have hopen : (n.link rule a .basic).network.Open n.states.size := hhas.open (.inl hkind)
      obtain ⟨hbody, hplain⟩ := Expr.compile_steps body (hlinked.ready hn) hlinked.sound hopen
        hfits
      have hexit := (body.compile_piece rule (hlinked.ready hn) hopen.has hfits).open hplain
      have hpiece := hbody.evolves hlinked.tidy hlinked.sound
      have hback := hpiece.inner hinside
      rw [compile_plus rule n a body greedy rfl]
      generalize body.compile rule ⟨(n.link rule a .basic).network, n.states.size⟩ = g at *
      -- The decision behind the piece, the state past the part, and the two ways.
      obtain ⟨hagain, hd, -, -⟩ := steps_link hpiece.tidy hpiece.sound rule
        (.inr rfl : StateKind.decision = _ ∨ _) (.inl hexit)
      have hdecided := hagain.evolves hpiece.tidy hpiece.sound
      have hpast := evolves_addState hdecided.tidy hdecided.sound rule
        (.inl rfl : StateKind.basic = .basic ∨ _)
      have houter := inner_addState (g.network.link rule g.exit .decision).network rule .basic
        hdecided.tidy
      have houtside : ((g.network.link rule g.exit .decision).network.addState rule .basic).HasKind
          .basic (g.network.link rule g.exit .decision).network.states.size :=
        ⟨_, by rw [state?_addState, if_pos rfl], rfl⟩
      rw [size_link] at houter houtside
      have hways := steps_decide greedy hpast.tidy hpast.sound (hpast.kind _ _ hd)
        (hpast.inner (hdecided.inner hback)) houter
      refine ⟨(((hlink.trans hbody).trans hagain).tail (.state rule (.inl rfl))).trans hways,
        .inl ?_⟩
      exact (hways.evolves hpast.tidy hpast.sound).kind _ _ houtside

/-- The same for the parts of a sequence. Each begins at the open state where the one before it
ends. -/
theorem Expr.compileSeq_steps : ∀ (es : List (Expr Label RuleIndex)) {n : Network} {a : Nat},
    n.Ready u count → n.Sound → n.Open a → Expr.AllFit (Label.Proper u) (· < count) es →
      n.Steps (Expr.compileSeq rule es ⟨n, a⟩).network ∧
        (Expr.compileSeq rule es ⟨n, a⟩).network.Plain (Expr.compileSeq rule es ⟨n, a⟩).exit
  | [], n, a, hn, hs, ha, _ => ⟨.refl, ha.plain⟩
  | e :: es, n, a, hn, hs, ha, hfits => by
      obtain ⟨hfirst, hplain⟩ := Expr.compile_steps e hn hs ha hfits.1
      have hevolves := hfirst.evolves hn.tidy hs
      have hexit := (e.compile_piece rule hn ha.has hfits.1).open hplain
      obtain ⟨hrest, hplain'⟩ := Expr.compileSeq_steps es (hevolves.ready hn) hevolves.sound hexit
        hfits.2
      exact ⟨hfirst.trans hrest, hplain'⟩

/-- The same for the branches of a choice. They end at a state that was made before, and there is no
exit of their own. -/
theorem Expr.compileAlt_steps : ∀ (es : List (Expr Label RuleIndex)) {n : Network} {d join : Nat},
    n.Ready u count → n.Sound → n.HasKind .decision d → n.Inner join →
      Expr.AllFit (Label.Proper u) (· < count) es →
        n.Steps (Expr.compileAlt rule d join es n)
  | [], n, d, join, hn, hs, hd, hjoin, _ => .refl
  | e :: es, n, d, join, hn, hs, hd, hjoin, hfits => by
      obtain ⟨hlink, hkind, -, hhas⟩ := steps_link hn.tidy hs rule
        (.inl rfl : StateKind.basic = _ ∨ _) (.inr hd)
      have hlinked := hlink.evolves hn.tidy hs
      have hopen : (n.link rule d .basic).network.Open n.states.size := hhas.open (.inl hkind)
      obtain ⟨hbody, hplain⟩ := Expr.compile_steps e (hlinked.ready hn) hlinked.sound hopen hfits.1
      have hexit := (e.compile_piece rule (hlinked.ready hn) hopen.has hfits.1).open hplain
      have hway := hlinked.trans (hbody.evolves hlinked.tidy hlinked.sound)
      have hback : Step _ _ := .move (e := .epsilon join) (.inl hexit) rfl (hway.inner hjoin)
      have hdone := hway.trans (hback.evolves hway.tidy hway.sound)
      exact ((hlink.trans hbody).tail hback).trans (Expr.compileAlt_steps es (hdone.ready hn)
        hdone.sound (hdone.kind _ _ hd) (hdone.inner hjoin) hfits.2)

end

/-- Compiling operators takes steps. -/
theorem Expr.compileOperators_steps (hrule : rule < count) :
    ∀ (es : List (Expr Label RuleIndex)) (level : Int) {n : Network} {entry : Nat},
      n.Ready u count → n.Sound → n.HasKind .decision entry → n.Inner entry →
        Expr.AllFit (Label.Proper u) (· < count) es →
          n.Steps (Expr.compileOperators rule entry es level n)
  | [], level, n, entry, hn, hs, hd, hinner, _ => .refl
  | e :: es, level, n, entry, hn, hs, hd, hinner, hfits => by
      obtain ⟨hgate, hkind, -, hhas⟩ := steps_extend (e := .gate n.states.size level) hn.tidy hs
        rule (.inl rfl : StateKind.basic = _ ∨ _) (.inr hd) rfl rfl
      have hgated := hgate.evolves hn.tidy hs
      have hopen := hhas.open (.inl hkind)
      obtain ⟨hbody, hplain⟩ := e.compile_steps rule (hgated.ready hn) hgated.sound hopen hfits.1
      have hexit := (e.compile_piece rule (hgated.ready hn) hopen.has hfits.1).open hplain
      have hoperator := hgated.trans (hbody.evolves hgated.tidy hgated.sound)
      -- Behind the operator comes its operand, and from there the way leads back.
      have hready := hoperator.ready hn
      have hcallee : rule < _ := hready.count_eq ▸ hrule
      have hcall : Step _ _ := .call rule (level + 1) hexit hcallee
      have hoperand := hoperator.trans (hcall.evolves hoperator.tidy hoperator.sound)
      have hfollow := (piece_call rule (level + 1) hready hexit.has hrule).open
        (.inl (hasKind_call_exit rule rule (level + 1) hready.tidy hexit hcallee))
      have hback : Step _ _ := .move (e := .epsilon entry) (.inl hfollow) rfl
        (hoperand.inner hinner)
      have hdone := hoperand.trans (hback.evolves hoperand.tidy hoperand.sound)
      exact (((hgate.trans hbody).tail hcall).tail hback).trans
        (Expr.compileOperators_steps hrule es (level - 1) (hdone.ready hn) hdone.sound
          (hdone.kind _ _ hd) (hdone.inner hinner) hfits.2)

/-- Compiling the body of a rule takes steps. -/
theorem Body.compile_steps (hrule : rule < count) (body : Body Label RuleIndex) {n : Network}
    {a : Nat} (hn : n.Ready u count) (hs : n.Sound) (ha : n.Open a)
    (hfits : body.Fits (Label.Proper u) (· < count)) :
    n.Steps (body.compile rule ⟨n, a⟩).network ∧
      (body.compile rule ⟨n, a⟩).network.Plain (body.compile rule ⟨n, a⟩).exit := by
  cases body with
  | plain e => exact e.compile_steps rule hn hs ha hfits
  | precedence primaries operators =>
      obtain ⟨hprimary, hplain⟩ := (Expr.alt primaries).compile_steps rule hn hs ha hfits.1
      have hfirst := hprimary.evolves hn.tidy hs
      have hexit := ((Expr.alt primaries).compile_piece rule hn ha.has hfits.1).open hplain
      simp only [Body.compile]
      generalize (Expr.alt primaries).compile rule ⟨n, a⟩ = g at *
      obtain ⟨hlink, hd, hinner, -⟩ := steps_link hfirst.tidy hfirst.sound rule
        (.inr rfl : StateKind.decision = _ ∨ _) (.inl hexit)
      have hlinked := hfirst.trans (hlink.evolves hfirst.tidy hfirst.sound)
      have hoperators := Expr.compileOperators_steps rule hrule operators operators.length
        (hlinked.ready hn) hlinked.sound hd hinner hfits.2
      have hdone := hoperators.evolves hlinked.tidy hlinked.sound
      obtain ⟨hlast, hkind, -, -⟩ := steps_link hdone.tidy hdone.sound rule
        (.inl rfl : StateKind.basic = _ ∨ _) (.inr (hdone.kind _ _ hd))
      exact ⟨((hprimary.trans hlink).trans hoperators).trans hlast, .inl hkind⟩

end Compile

namespace Network

/-! ### The network of a list of rules -/

/-- Without bodies there are no edges, and start and stop states are what they should be. -/
theorem Blank.sound {n : Network} {k : Nat} (h : n.Blank k) : n.Sound := by
  -- The states of a rule come in pairs, so the kind can be read off the number.
  have hkind : ∀ kind a, n.HasKind kind a ↔
      a < 2 * k ∧ (if a % 2 = 0 then StateKind.ruleStart else .ruleStop) = kind := by
    intro kind a
    constructor
    · rintro ⟨s, hs, hkind⟩
      have hlt : a < 2 * k := h.size_eq ▸ state?_lt hs
      obtain ⟨rule, hstate⟩ := h.state a hlt
      cases hs.symm.trans hstate
      exact ⟨hlt, hkind⟩
    · rintro ⟨hlt, hkind⟩
      obtain ⟨rule, hstate⟩ := h.state a hlt
      exact ⟨_, hstate, hkind⟩
  have hedges : n.edges = [] := by
    rw [edges, List.flatMap_eq_nil_iff]
    intro s hs
    obtain ⟨a, ha⟩ := List.mem_iff_getElem?.mp hs
    exact h.edges_eq_nil (a := a) (by rw [state?, ← Array.getElem?_toList, ha])
  refine
    { id_eq := ?_
      start_iff := ?_
      stop_iff := ?_
      fork := fun a s hs _ _ => by simp [h.edges_eq_nil hs]
      decision := fun a s hs _ e he => by simp [h.edges_eq_nil hs] at he
      follow_kind := fun f hf => absurd hf (h.not_isFollow f)
      read_inner := fun a s hs t l he => by simp [h.edges_eq_nil hs] at he
      balanced := ?_ }
  · intro a s hs
    obtain ⟨rule, hstate⟩ := h.state a (h.size_eq ▸ state?_lt hs)
    cases hs.symm.trans hstate
    rfl
  · intro a
    rw [hkind]
    constructor
    · rintro ⟨hlt, heven⟩
      have heven' : a % 2 = 0 := by
        by_contra hodd
        rw [if_neg hodd] at heven
        cases heven
      exact ⟨a / 2, h.start?_eq_some_iff.mpr ⟨by omega, by omega⟩⟩
    · rintro ⟨r, hr⟩
      obtain ⟨hlt, rfl⟩ := h.start?_eq_some_iff.mp hr
      exact ⟨by omega, if_pos (by omega)⟩
  · intro a
    rw [hkind]
    constructor
    · rintro ⟨hlt, hodd⟩
      have hodd' : ¬ a % 2 = 0 := by
        intro heven
        rw [if_pos heven] at hodd
        cases hodd
      exact ⟨a / 2, h.stop?_eq_some_iff.mpr ⟨by omega, by omega⟩⟩
    · rintro ⟨r, hr⟩
      obtain ⟨hlt, rfl⟩ := h.stop?_eq_some_iff.mp hr
      exact ⟨by omega, if_neg (by omega)⟩
  · intro r stop s hstop hs
    rw [h.edges_eq_nil hs, follows, hedges]
    exact .nil

/-- Filling in the body of one rule. -/
theorem addBody_evolves {n : Network} {u : Universe} {count r start stop : Nat}
    {body : Body Label RuleIndex} (hn : n.Ready u count) (hs : n.Sound) (hr : r < count)
    (hstart : n.start? r = some start) (hstop : n.stop? r = some stop) (hopen : n.Open start)
    (hinner : n.Inner stop) (hfits : body.Fits (Label.Proper u) (· < count)) :
    n.Evolves (n.addBody r body) := by
  obtain ⟨hsteps, hplain⟩ := body.compile_steps r hr hn hs hopen hfits
  have hexit := (body.compile_piece r hr hn hopen.has hfits).open hplain
  have hbody := hsteps.evolves hn.tidy hs
  have hlast : Step _ _ := .move (e := .epsilon stop) (.inl hexit) rfl (hbody.inner hinner)
  have hadd : n.addBody r body = (body.compile r ⟨n, start⟩).network.addEdge
      (body.compile r ⟨n, start⟩).exit (.epsilon stop) := by
    simp only [addBody, hstart, hstop]
  rw [hadd]
  exact hbody.trans (hlast.evolves hbody.tidy hbody.sound)

/-- Bodies are filled in one after the other. The start states of the rules whose turn has not come
yet stay open. -/
theorem addBodies_evolves {u : Universe} {count : Nat} (rules : List (Rule Label RuleIndex)) :
    ∀ {n : Network} {k : Nat}, n.Ready u count → n.Sound → k + rules.length ≤ count →
      (∀ r, r < count → n.start? r = some (2 * r)) → (∀ r, k ≤ r → r < count → n.Open (2 * r)) →
      (∀ r, r < count → n.stop? r = some (2 * r + 1) ∧ n.Inner (2 * r + 1)) →
      (∀ rule ∈ rules, rule.body.Fits (Label.Proper u) (· < count)) →
        n.Evolves (n.addBodies k rules) := by
  induction rules with
  | nil =>
      intro n k hn hs _ _ _ _ _
      exact .refl hn.tidy hs
  | cons first rest ih =>
      intro n k hn hs hk hstarts hopen hstops hfits
      rw [List.length_cons] at hk
      have hkc : k < count := by omega
      have hfirst := hopen k (Nat.le_refl k) hkc
      have hbody := hfits first List.mem_cons_self
      have hadded := addBody_evolves hn hs hkc (hstarts k hkc) (hstops k hkc).1 hfirst
        (hstops k hkc).2 hbody
      have hgrows := (addBody_spec hn hkc (hstarts k hkc) (hstops k hkc).1 hfirst.has
        (hstops k hkc).2 hbody).1
      refine hadded.trans (ih (k := k + 1) (hadded.ready hn) hadded.sound (by omega) ?_ ?_ ?_ ?_)
      · intro r hr
        rw [start?, hgrows.starts_eq]
        exact hstarts r hr
      · intro r hkr hr
        -- The body of another rule does not touch a start state, nor change its kind.
        have hold := hopen r (by omega) hr
        exact (hgrows.has hold.has (by omega)).open (hadded.plain hold.plain)
      · intro r hr
        refine ⟨?_, hadded.inner (hstops r hr).2⟩
        rw [stop?, hgrows.stops_eq]
        exact (hstops r hr).1
      · intro rule hrule
        exact hfits rule (List.mem_cons_of_mem _ hrule)

/-- The network of a list of rules is sound. -/
theorem ofRules_sound {rules : List (Rule Label RuleIndex)} {max : TokenType}
    (hfits : ∀ rule ∈ rules,
      rule.body.Fits (Label.Proper ⟨firstTokenType, max⟩) (· < rules.length)) :
    (ofRules rules max).Sound := by
  have hblank := blank_repeat max rules.length
  have hready : (Nat.repeat Network.addRule rules.length (empty max)).Ready
      ⟨firstTokenType, max⟩ rules.length :=
    ⟨hblank.tidy, by rw [alphabet, maxTokenType_repeat], hblank.starts_size⟩
  refine (addBodies_evolves rules (k := 0) hready hblank.sound (by omega) hblank.start ?_ ?_
    hfits).sound
  · intro r _ hr
    have hstart := (hblank.sound.start_iff (2 * r)).mpr ⟨r, hblank.start r hr⟩
    exact (hblank.has_start hr).open (.inr hstart)
  · intro r hr
    exact ⟨hblank.stop r hr, hblank.inner_stop hr⟩

end Network

end Caret
