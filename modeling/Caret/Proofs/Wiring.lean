import Caret.Proofs.Growth
import Caret.Proofs.Terminal

/-!
# `Caret.Proofs.Wiring`: the pieces of a compiled network

`n.Wired e a b` says that the states of `n` between `a` and `b` are the piece that an expression
compiles to, and `n.WiredBody r body a b` says so of the body of a rule. `Network.ofRules_realizes`
states that in the network of a list of rules the body of every rule lies between its start and its
stop state.

A piece is built while the network grows further around it. What is proved of a piece must hold of
the network in the end, so `Piece` speaks of every network that grows out of the present one without
touching the states of the piece, except for its exit.
-/

set_option autoImplicit false

namespace Caret

/-! ### Expressions that can be compiled -/

namespace Expr

variable {τ ρ : Type} (terminals : τ → Prop) (references : ρ → Prop)

mutual

/-- All terminals and all references of the expression are admissible. -/
def Fits : Expr τ ρ → Prop
  | .terminal t => terminals t
  | .rule r => references r
  | .empty => True
  | .seq parts => AllFit parts
  | .alt alternatives => AllFit alternatives
  | .optional body _ => Fits body
  | .star body _ => Fits body
  | .plus body _ => Fits body

/-- All terminals and all references of the expressions are admissible. -/
def AllFit : List (Expr τ ρ) → Prop
  | [] => True
  | e :: es => Fits e ∧ AllFit es

end

end Expr

/-- All terminals and all references of the body are admissible. -/
def Body.Fits {τ ρ : Type} (terminals : τ → Prop) (references : ρ → Prop) : Body τ ρ → Prop
  | .plain e => e.Fits terminals references
  | .precedence primaries operators =>
      Expr.AllFit terminals references primaries ∧ Expr.AllFit terminals references operators

mutual

/-- What is admissible stays so under weaker conditions. -/
theorem Expr.Fits.mono {τ ρ : Type} {P P' : τ → Prop} {Q Q' : ρ → Prop} (hP : ∀ t, P t → P' t)
    (hQ : ∀ r, Q r → Q' r) : ∀ {e : Expr τ ρ}, e.Fits P Q → e.Fits P' Q'
  | .terminal t, h => hP t h
  | .rule r, h => hQ r h
  | .empty, _ => trivial
  | .seq _, h => Expr.AllFit.mono hP hQ h
  | .alt _, h => Expr.AllFit.mono hP hQ h
  | .optional e _, h => Expr.Fits.mono (e := e) hP hQ h
  | .star e _, h => Expr.Fits.mono (e := e) hP hQ h
  | .plus e _, h => Expr.Fits.mono (e := e) hP hQ h

/-- The same for the expressions of a list. -/
theorem Expr.AllFit.mono {τ ρ : Type} {P P' : τ → Prop} {Q Q' : ρ → Prop} (hP : ∀ t, P t → P' t)
    (hQ : ∀ r, Q r → Q' r) : ∀ {es : List (Expr τ ρ)}, Expr.AllFit P Q es → Expr.AllFit P' Q' es
  | [], _ => trivial
  | _ :: _, h => ⟨Expr.Fits.mono hP hQ h.1, Expr.AllFit.mono hP hQ h.2⟩

end

/-- The label has the symbols that it admits. -/
def Label.Proper (u : Universe) (l : Label) : Prop := l.Denotes u (l.values u)

namespace Network

/-! ### Pieces -/

/-- The state has exactly these edges, and they lead to states that exist. -/
def Leads (n : Network) (a : Nat) (edges : List Edge) : Prop :=
  n.Has a edges ∧ ∀ e ∈ edges, e.target < n.states.size

/-- The state calls a rule, which returns to `f`. -/
def Calls (n : Network) (a : Nat) (callee : RuleIndex) (level : Int) (f : Nat) : Prop :=
  ∃ start, n.start? callee = some start ∧ n.Leads a [.call start callee f level] ∧
    n.Returns callee f

mutual

/-- The expression is compiled to what lies between two states. -/
inductive Wired (n : Network) : Expr Label RuleIndex → Nat → Nat → Prop where
  | terminal {l : Label} {a b : Nat} :
      l.Proper n.alphabet → n.Leads a [.read b l] → Wired n (.terminal l) a b
  | rule {callee : RuleIndex} {a b : Nat} : n.Calls a callee 0 b → Wired n (.rule callee) a b
  | empty {a : Nat} : Wired n .empty a a
  | seqNil {a : Nat} : Wired n (.seq []) a a
  | seqCons {e : Expr Label RuleIndex} {es : List (Expr Label RuleIndex)} {a m b : Nat} :
      Wired n e a m → Wired n (.seq es) m b → Wired n (.seq (e :: es)) a b
  | alt {es : List (Expr Label RuleIndex)} {a d b : Nat} {edges : List Edge} :
      n.Leads a [.epsilon d] → n.Leads d edges → Branches n es edges b → Wired n (.alt es) a b
  | optional {e : Expr Label RuleIndex} {greedy : Bool} {a d i x b : Nat} :
      n.Leads a [.epsilon d] → n.Leads d (ways greedy i b) → Wired n e i x →
        n.Leads x [.epsilon b] → Wired n (.optional e greedy) a b
  | star {e : Expr Label RuleIndex} {greedy : Bool} {a d i x b : Nat} :
      n.Leads a [.epsilon d] → n.Leads d (ways greedy i b) → Wired n e i x →
        n.Leads x [.epsilon d] → Wired n (.star e greedy) a b
  | plus {e : Expr Label RuleIndex} {greedy : Bool} {a d i x b : Nat} :
      n.Leads a [.epsilon i] → Wired n e i x → n.Leads x [.epsilon d] →
        n.Leads d (ways greedy i b) → Wired n (.plus e greedy) a b

/-- The edges lead into one piece for each expression, and all pieces lead to `b`. -/
inductive Branches (n : Network) : List (Expr Label RuleIndex) → List Edge → Nat → Prop where
  | nil {b : Nat} : Branches n [] [] b
  | cons {e : Expr Label RuleIndex} {es : List (Expr Label RuleIndex)} {i x b : Nat}
      {edges : List Edge} :
      Wired n e i x → n.Leads x [.epsilon b] → Branches n es edges b →
        Branches n (e :: es) (.epsilon i :: edges) b

end

/-- The edges are gates into one piece for each operator. Behind its piece the rule is called one
level higher, and then the way leads back to `entry`. -/
inductive Gates (n : Network) (r : RuleIndex) (entry : Nat) :
    List (Expr Label RuleIndex) → Int → List Edge → Prop where
  | nil {level : Int} : Gates n r entry [] level []
  | cons {e : Expr Label RuleIndex} {es : List (Expr Label RuleIndex)} {level : Int}
      {i x f : Nat} {edges : List Edge} :
      n.Wired e i x → n.Calls x r (level + 1) f → n.Leads f [.epsilon entry] →
        Gates n r entry es (level - 1) edges →
          Gates n r entry (e :: es) level (.gate i level :: edges)

/-- The body of a rule is compiled to what lies between two states. -/
inductive WiredBody (n : Network) (r : RuleIndex) : Body Label RuleIndex → Nat → Nat → Prop where
  | plain {e : Expr Label RuleIndex} {a b : Nat} :
      n.Wired e a b → WiredBody n r (.plain e) a b
  | precedence {primaries operators : List (Expr Label RuleIndex)} {a m entry b : Nat}
      {gates : List Edge} :
      n.Wired (.alt primaries) a m → n.Leads m [.epsilon entry] →
        n.Gates r entry operators operators.length gates →
          n.Leads entry (gates ++ [.epsilon b]) →
            WiredBody n r (.precedence primaries operators) a b

/-! ### Building pieces -/

/-- What a piece needs of the network it is added to. -/
structure Ready (n : Network) (u : Universe) (count : Nat) : Prop where
  tidy : n.Tidy
  alphabet_eq : n.alphabet = u
  count_eq : n.starts.size = count

/-- A network has grown by a piece that starts at `a`, and `P` holds of the network and of every
network that grows out of it as long as nothing of the piece is touched but its exit. -/
structure Piece (n : Network) (a : Nat) (g : Growth) (P : Network → Prop) : Prop where
  grows : n.Grows g.network fun x => x = a
  exit_has : g.network.Has g.exit []
  exit_eq_or_le : a = g.exit ∨ n.states.size ≤ g.exit
  lasts : ∀ N touched, g.network.Grows N touched →
    (∀ x, x = a ∨ n.states.size ≤ x → x < g.network.states.size → touched x → x = g.exit) → P N

/-- A network that has grown is ready for the next piece. -/
theorem Grows.ready {n m : Network} {touched : Nat → Prop} {u : Universe} {count : Nat}
    (h : n.Grows m touched) (hn : n.Ready u count) : m.Ready u count where
  tidy := h.tidy hn.tidy
  alphabet_eq := h.alphabet_eq.trans hn.alphabet_eq
  count_eq := by rw [h.starts_eq, hn.count_eq]

/-- An edge to a state that exists in the network goes on leading there. -/
theorem Grows.leads {n m : Network} {touched : Nat → Prop} {a : Nat} {edges : List Edge}
    (h : n.Grows m touched) (ha : n.Has a edges) (hnot : ¬ touched a)
    (htargets : ∀ e ∈ edges, e.target < n.states.size) : m.Leads a edges :=
  ⟨h.has ha hnot, fun e he => Nat.lt_of_lt_of_le (htargets e he) h.size_le⟩

/-- The same for an edge that just moves on. -/
theorem Grows.leads_epsilon {n m : Network} {touched : Nat → Prop} {a b : Nat}
    (h : n.Grows m touched) (ha : n.Has a [.epsilon b]) (hnot : ¬ touched a)
    (hb : b < n.states.size) : m.Leads a [.epsilon b] := by
  refine h.leads ha hnot ?_
  intro e he
  rw [List.mem_singleton.mp he]
  exact hb

/-- The same for the two ways of a decision. -/
theorem Grows.leads_ways {n m : Network} {touched : Nat → Prop} {a i b : Nat} {greedy : Bool}
    (h : n.Grows m touched) (ha : n.Has a (ways greedy i b)) (hnot : ¬ touched a)
    (hi : i < n.states.size) (hb : b < n.states.size) : m.Leads a (ways greedy i b) := by
  refine h.leads ha hnot ?_
  intro e he
  have htarget : e = .epsilon i ∨ e = .epsilon b := by
    cases greedy with
    | true => simpa [ways] using he
    | false => simpa [ways, or_comm] using he
  rcases htarget with rfl | rfl
  · exact hi
  · exact hb

section Pieces

variable {n : Network} {u : Universe} {count : Nat} {a : Nat}

/-- The piece of a terminal: one edge that reads, to a new state. -/
theorem piece_read (rule : RuleIndex) {l : Label} (hn : n.Ready u count) (ha : n.Has a [])
    (hl : l.Proper u) :
    n.Piece a (n.read rule a l) fun N => N.Wired (.terminal l) a (n.read rule a l).exit := by
  have hlt : a < n.states.size := ha.lt
  obtain ⟨hgrows, hexit, -, hedge⟩ := extend_spec (e := .read n.states.size l) rule .basic
    (by decide) rfl rfl hn.tidy ha (by simp)
  refine ⟨hgrows, hexit, Or.inr (Nat.le_refl _), ?_⟩
  intro N touched hN hkeep
  -- The source is older than the exit, so it is not touched any more.
  have hnot : ¬ touched a := by
    intro hta
    have hsame : a = n.states.size := hkeep a (Or.inl rfl) hedge.lt hta
    omega
  have hu : N.alphabet = u := (hN.ready (hgrows.ready hn)).alphabet_eq
  refine .terminal ?_ (hN.leads hedge hnot ?_)
  · rw [hu]
    exact hl
  · intro e he
    rw [List.mem_singleton.mp he]
    exact hexit.lt

/-- The piece of a call: one edge to the start of the rule, which returns to a new state. -/
theorem piece_call (rule : RuleIndex) {callee : RuleIndex} (level : Int) (hn : n.Ready u count)
    (ha : n.Has a []) (hcallee : callee < count) :
    n.Piece a (n.call rule a callee level) fun N =>
      N.Calls a callee level (n.call rule a callee level).exit := by
  have hlt : a < n.states.size := ha.lt
  obtain ⟨start, hstart, hexit, hgrows, hfollow, hedge, hreturns⟩ :=
    call_spec rule level hn.tidy ha (hn.count_eq ▸ hcallee)
  refine ⟨hgrows, hexit ▸ hfollow, Or.inr (hexit ▸ Nat.le_refl _), ?_⟩
  intro N touched hN hkeep
  have hnot : ¬ touched a := by
    intro hta
    have hsame : a = n.states.size := (hkeep a (Or.inl rfl) hedge.lt hta).trans hexit
    omega
  refine ⟨start, ?_, hN.leads (hexit ▸ hedge) hnot ?_, hexit ▸ hN.returns hreturns⟩
  · rw [start?, hN.starts_eq, hgrows.starts_eq]
    exact hstart
  · intro e he
    rw [List.mem_singleton.mp he]
    exact Nat.lt_of_lt_of_le (hn.tidy.start_lt callee start hstart) hgrows.size_le

end Pieces

/-! ### Optional and repeated parts -/

/-- The network with the start of an optional or repeated part: a decision, a state inside the part
and a state past it. -/
def branch (n : Network) (rule : RuleIndex) (a : Nat) (greedy : Bool) : Network :=
  ((((n.addState rule .decision).addEdge a (.epsilon n.states.size)).addState rule .basic).addState
    rule .basic).decide n.states.size (n.states.size + 1) (n.states.size + 2) greedy

/-- The new states of a branch: the decision, the state inside, and the state past the part. -/
structure Branched (n m : Network) (a : Nat) (greedy : Bool) : Prop where
  grows : n.Grows m fun x => x = a
  size_eq : m.states.size = n.states.size + 3
  source : m.Has a [.epsilon n.states.size]
  decision : m.Has n.states.size (ways greedy (n.states.size + 1) (n.states.size + 2))
  inside : m.Has (n.states.size + 1) []
  outside : m.Has (n.states.size + 2) []
  inner_decision : m.Inner n.states.size
  inner_outside : m.Inner (n.states.size + 2)

/-- A decision adds edges, but no states. -/
theorem size_decide (n : Network) (d i j : Nat) (greedy : Bool) :
    (n.decide d i j greedy).states.size = n.states.size := by
  cases greedy with
  | true => simp [decide, choose, addEdge]
  | false => simp [decide, choose, addEdge]

/-- A link adds one state. -/
theorem size_link (rule : RuleIndex) (n : Network) (a : Nat) (kind : StateKind) :
    (n.link rule a kind).network.states.size = n.states.size + 1 := by
  show ((n.addState rule kind).addEdge a _).states.size = _
  rw [size_addEdge, size_addState]

/-- What a branch looks like when it is built. -/
theorem branched_branch {n : Network} {a : Nat} (rule : RuleIndex) (greedy : Bool) (ht : n.Tidy)
    (ha : n.Has a []) : n.Branched (n.branch rule a greedy) a greedy := by
  have hlt : a < n.states.size := ha.lt
  obtain ⟨hlink, hd, hdInner, hedge⟩ := extend_spec (e := .epsilon n.states.size) rule .decision
    (by decide) rfl rfl ht ha (by simp)
  -- The two other states are added to the network that is linked to the decision.
  let linked := (n.addState rule .decision).addEdge a (.epsilon n.states.size)
  have hsize : linked.states.size = n.states.size + 1 := size_link rule n a .decision
  have hone := grows_addState linked rule .basic (by decide)
  have htwo := grows_addState (linked.addState rule .basic) rule .basic (by decide)
  have hboth := hone.trans htwo
  have hnone : ¬ (False ∨ False) := fun h => h.elim id id
  have hi := htwo.inner (inner_addState linked rule .basic (hlink.tidy ht))
  have hj := inner_addState (linked.addState rule .basic) rule .basic (hone.tidy (hlink.tidy ht))
  have hiHas := htwo.has (has_addState linked rule .basic (by decide)) id
  have hjHas := has_addState (linked.addState rule .basic) rule .basic (by decide)
  rw [size_addState, hsize] at hj hjHas
  rw [hsize] at hi hiHas
  obtain ⟨hdecide, hways⟩ := decide_spec greedy (hboth.has hd hnone) hi hj
  exact {
    grows := ((hlink.trans hboth).trans hdecide).mono fun x hx htouched => by
      rcases htouched with (rfl | hfalse) | rfl
      · rfl
      · exact absurd hfalse hnone
      · omega
    size_eq := by
      rw [branch, size_decide, size_addState, size_addState, size_addEdge, size_addState]
    source := hdecide.has (hboth.has hedge hnone) (by omega)
    decision := hways
    inside := hdecide.has hiHas (by omega)
    outside := hdecide.has hjHas (by omega)
    inner_decision := hdecide.inner (hboth.inner hdInner)
    inner_outside := hdecide.inner hj }

/-- A piece with a weaker property. -/
theorem Piece.imp {n : Network} {a : Nat} {g : Growth} {P Q : Network → Prop}
    (h : n.Piece a g P) (himp : ∀ N, P N → Q N) : n.Piece a g Q :=
  { h with lasts := fun N touched hN hkeep => himp N (h.lasts N touched hN hkeep) }

/-- An optional or repeated part: behind the branch comes the piece of the part, and its exit leads
to `t`, which is the decision or the state past the part. -/
theorem piece_part {n : Network} {a : Nat} {rule : RuleIndex} {greedy : Bool} {t : Nat}
    {g : Growth} {P : Network → Prop} (hn : n.Tidy) (ha : n.Has a [])
    (ht : t = n.states.size ∨ t = n.states.size + 2)
    (hbody : (n.branch rule a greedy).Piece (n.states.size + 1) g P) :
    n.Piece a ⟨g.network.addEdge g.exit (.epsilon t), n.states.size + 2⟩ fun N =>
      N.Leads a [.epsilon n.states.size] ∧
        N.Leads n.states.size (ways greedy (n.states.size + 1) (n.states.size + 2)) ∧
        P N ∧ N.Leads g.exit [.epsilon t] := by
  have hlt : a < n.states.size := ha.lt
  have hb := branched_branch rule greedy hn ha
  have hsize := hb.size_eq
  have hexit := hbody.exit_eq_or_le
  have hinner : (n.branch rule a greedy).Inner t := by
    rcases ht with rfl | rfl
    · exact hb.inner_decision
    · exact hb.inner_outside
  have hedge := grows_addEdge (e := .epsilon t) rfl hbody.exit_has (by simp)
    fun _ => hbody.grows.inner hinner
  have hlast := has_addEdge (e := .epsilon t) rfl hbody.exit_has
  have hfinal := hbody.grows.trans hedge
  have houtside := hfinal.has hb.outside (by omega)
  refine ⟨?_, houtside, Or.inr (Nat.le_add_right _ 2), ?_⟩
  · refine (hb.grows.trans hfinal).mono ?_
    intro x hx htouched
    omega
  · intro N touched hN hkeep
    have hgrown := hedge.size_le
    have hgrown' := hbody.grows.size_le
    -- Of the states of the part only the one past it may be touched later.
    have hpast : ∀ x, x = a ∨ n.states.size ≤ x → x < g.network.states.size → touched x →
        x = n.states.size + 2 := fun x hx hxlt hxt =>
      hkeep x hx (Nat.lt_of_lt_of_le hxlt hgrown) hxt
    have hnot : ∀ x, x = a ∨ n.states.size ≤ x → x < g.network.states.size →
        x ≠ n.states.size + 2 → ¬ touched x := fun x hx hxlt hne hxt => hne (hpast x hx hxlt hxt)
    refine ⟨?_, ?_, ?_, ?_⟩
    · refine (hfinal.trans hN).leads_epsilon hb.source ?_ (by omega)
      rintro (h | h)
      · omega
      · exact hnot a (Or.inl rfl) (by omega) (by omega) h
    · refine (hfinal.trans hN).leads_ways hb.decision ?_ (by omega) (by omega)
      rintro (h | h)
      · omega
      · exact hnot _ (Or.inr (Nat.le_refl _)) (by omega) (by omega) h
    · refine hbody.lasts N _ (hedge.trans hN) ?_
      rintro x hx hxlt (h | h)
      · exact h
      · have := hpast x (by omega) hxlt h
        omega
    · have hx : g.exit < g.network.states.size := hbody.exit_has.lt
      refine hN.leads_epsilon hlast (hnot g.exit (by omega) hx (by omega)) ?_
      exact (hfinal.inner hinner).lt

/-- A part that is read at least once: the decision comes behind its piece. -/
theorem piece_again {n : Network} {a : Nat} (rule : RuleIndex) (greedy : Bool) {g : Growth}
    {P : Network → Prop} (hn : n.Tidy) (ha : n.Has a [])
    (hbody : (n.link rule a .basic).network.Piece n.states.size g P) :
    n.Piece a ⟨((g.network.link rule g.exit .decision).network.addState rule .basic).decide
        g.network.states.size n.states.size (g.network.states.size + 1) greedy,
        g.network.states.size + 1⟩ fun N =>
      N.Leads a [.epsilon n.states.size] ∧ P N ∧ N.Leads g.exit [.epsilon g.network.states.size] ∧
        N.Leads g.network.states.size
          (ways greedy n.states.size (g.network.states.size + 1)) := by
  have hlt : a < n.states.size := ha.lt
  obtain ⟨hlink, -, hinside, hsource⟩ := extend_spec (e := .epsilon n.states.size) rule .basic
    (by decide) rfl rfl hn ha (by simp)
  have hsize := size_link rule n a .basic
  have hexit := hbody.exit_eq_or_le
  have hexitLt := hbody.exit_has.lt
  have hbodySize := hbody.grows.size_le
  -- The decision behind the piece, the state past it, and the two ways.
  obtain ⟨hagain, hdecision, hdInner, hlast⟩ := extend_spec
    (e := .epsilon g.network.states.size) rule .decision (by decide) rfl rfl
    (hbody.grows.tidy (hlink.tidy hn)) hbody.exit_has (by simp)
  let again := (g.network.link rule g.exit .decision).network
  have hagainSize : again.states.size = g.network.states.size + 1 :=
    size_link rule g.network g.exit .decision
  have hout := grows_addState again rule .basic (by decide)
  have houtInner := inner_addState again rule .basic
    (hagain.tidy (hbody.grows.tidy (hlink.tidy hn)))
  have houtHas := has_addState again rule .basic (by decide)
  rw [hagainSize] at houtInner houtHas
  have hinside' := hout.inner (hagain.inner (hbody.grows.inner hinside))
  obtain ⟨hdecide, hways⟩ := decide_spec greedy (hout.has hdecision id) hinside' houtInner
  have htail : again.Grows _ fun x => x = g.network.states.size :=
    (hout.trans hdecide).mono fun _ _ h => h.resolve_left id
  have hrest := hagain.trans htail
  have hfinalSize := htail.size_le
  have hfinal := hdecide.has houtHas (by omega)
  refine ⟨?_, hfinal, Or.inr ?_, ?_⟩
  · refine ((hlink.trans hbody.grows).trans hrest).mono ?_
    intro x hx htouched
    omega
  · show n.states.size ≤ g.network.states.size + 1
    omega
  · intro N touched hN hkeep
    -- The state past the part is newer than all that has to last.
    have hnot : ∀ x, x = a ∨ n.states.size ≤ x → x < again.states.size → ¬ touched x := by
      intro x hx hxlt hxt
      have hsame : x = g.network.states.size + 1 :=
        hkeep x hx (Nat.lt_of_lt_of_le hxlt hfinalSize) hxt
      omega
    refine ⟨?_, ?_, ?_, ?_⟩
    · refine ((hbody.grows.trans hrest).trans hN).leads_epsilon hsource ?_ hinside.lt
      rintro (h | h)
      · omega
      · exact hnot a (Or.inl rfl) (by omega) h
    · refine hbody.lasts N _ (hrest.trans hN) ?_
      rintro x hx hxlt ((h | h) | h)
      · exact h
      · omega
      · exact absurd h (hnot x (by omega) (by omega))
    · refine (htail.trans hN).leads_epsilon hlast ?_ hdInner.lt
      rintro (h | h)
      · omega
      · exact hnot g.exit (by omega) (by omega) h
    · refine hN.leads_ways hways (hnot _ (by omega) (by omega)) ?_ ?_
      · exact (hdecide.inner hinside').lt
      · exact (hdecide.inner houtInner).lt

/-- Two pieces one after the other are a piece. -/
theorem Piece.trans {n : Network} {a : Nat} {g g' : Growth} {P Q : Network → Prop}
    (h : n.Piece a g P) (h' : g.network.Piece g.exit g' Q) (ha : a < n.states.size) :
    n.Piece a g' fun N => P N ∧ Q N := by
  have hexit := h.exit_eq_or_le
  have hexit' := h'.exit_eq_or_le
  have hsize := h.grows.size_le
  have hsize' := h'.grows.size_le
  refine ⟨?_, h'.exit_has, by omega, ?_⟩
  · refine (h.grows.trans h'.grows).mono ?_
    intro x hx htouched
    omega
  · intro N touched hN hkeep
    constructor
    · refine h.lasts N _ (h'.grows.trans hN) ?_
      rintro x hx hxlt (hx' | hxt)
      · exact hx'
      · -- A touched state of the first piece can only be the exit of both.
        have := hkeep x hx (by omega) hxt
        omega
    · exact h'.lasts N touched hN fun x hx hxlt hxt => hkeep x (by omega) hxlt hxt

/-! ### Alternatives and operators -/

/-- A network has grown by ways that begin at the state `d`, behind the edges it had before. None of
the new edges is a call. `P` holds of them in the network and in every network that grows out of it
as long as nothing that was added is touched. -/
structure Fan (n : Network) (d : Nat) (before : List Edge) (m : Network)
    (P : List Edge → Network → Prop) : Prop where
  grows : n.Grows m fun x => x = d
  lasts : ∃ edges, m.Has d (before ++ edges) ∧
    (∀ e ∈ edges, e.target < m.states.size ∧ e.isCall = false) ∧
    ∀ N touched, m.Grows N touched →
      (∀ x, n.states.size ≤ x → x < m.states.size → ¬ touched x) → P edges N

/-- No ways. -/
theorem Fan.nil {n : Network} {d : Nat} {before : List Edge} {P : List Edge → Network → Prop}
    (hd : n.Has d before) (hP : ∀ N, P [] N) : n.Fan d before n P where
  grows := (Grows.refl n).mono fun _ _ h => h.elim
  lasts := ⟨[], by rw [List.append_nil]; exact hd, by simp, fun N _ _ _ => hP N⟩

/-- One more edge that is no call. -/
theorem isCall_append_singleton {before : List Edge} {e : Edge}
    (hbefore : ∀ e' ∈ before, e'.isCall = false) (he : e.isCall = false) :
    ∀ e' ∈ before ++ [e], e'.isCall = false := by
  intro e' he'
  rcases List.mem_append.mp he' with he' | he'
  · exact hbefore e' he'
  · exact List.mem_singleton.mp he' ▸ he

/-- One way: an edge `e` to a new state, a piece from there, and an edge from its exit to `t`. -/
theorem way_spec {n : Network} {d t : Nat} {before : List Edge} {e : Edge} {rule : RuleIndex}
    {g : Growth} {P : Network → Prop} (hcall : e.isCall = false)
    (htarget : e.target = n.states.size) (hn : n.Tidy) (hd : n.Has d before)
    (hbefore : ∀ e' ∈ before, e'.isCall = false) (ht : n.Inner t)
    (hbody : ((n.addState rule .basic).addEdge d e).Piece n.states.size g P) :
    n.Grows (g.network.addEdge g.exit (.epsilon t)) (fun x => x = d) ∧
      (g.network.addEdge g.exit (.epsilon t)).Has d (before ++ [e]) ∧
      e.target < (g.network.addEdge g.exit (.epsilon t)).states.size ∧
      ∀ N touched, (g.network.addEdge g.exit (.epsilon t)).Grows N touched →
        (∀ x, n.states.size ≤ x → x < (g.network.addEdge g.exit (.epsilon t)).states.size →
          ¬ touched x) → P N ∧ N.Leads g.exit [.epsilon t] := by
  have hlt : d < n.states.size := hd.lt
  obtain ⟨hopen, -, hinside, hsource⟩ :=
    extend_spec rule .basic (by decide) hcall htarget hn hd hbefore
  have hsize : ((n.addState rule .basic).addEdge d e).states.size = n.states.size + 1 := by
    rw [size_addEdge, size_addState]
  have hexit := hbody.exit_eq_or_le
  have hexitLt := hbody.exit_has.lt
  have hinner := hbody.grows.inner (hopen.inner ht)
  have hclose := grows_addEdge (e := .epsilon t) rfl hbody.exit_has (by simp) fun _ => hinner
  have hlast := has_addEdge (e := .epsilon t) rfl hbody.exit_has
  have hcloseSize := hclose.size_le
  have hfinal := hbody.grows.trans hclose
  refine ⟨?_, hfinal.has hsource (by omega), ?_, ?_⟩
  · refine (hopen.trans hfinal).mono ?_
    intro x hx htouched
    omega
  · rw [htarget]
    exact (hfinal.inner hinside).lt
  · intro N touched hN hkeep
    constructor
    · refine hbody.lasts N _ (hclose.trans hN) ?_
      rintro x hx hxlt (h | h)
      · exact h
      · exact absurd h (hkeep x (by omega) (by omega))
    · exact hN.leads_epsilon hlast (hkeep g.exit (by omega) (by omega)) (hclose.inner hinner).lt

/-- One more way in front of the others. -/
theorem Fan.cons {n n' m : Network} {d : Nat} {before : List Edge} {e : Edge} {W : Network → Prop}
    {P Q : List Edge → Network → Prop} (hcall : e.isCall = false) (hd : d < n.states.size)
    (hgrows : n.Grows n' fun x => x = d) (htarget : e.target < n'.states.size)
    (hway : ∀ N touched, n'.Grows N touched →
      (∀ x, n.states.size ≤ x → x < n'.states.size → ¬ touched x) → W N)
    (hrest : n'.Fan d (before ++ [e]) m Q)
    (himp : ∀ edges N, W N → Q edges N → P (e :: edges) N) : n.Fan d before m P := by
  obtain ⟨edges, hedges, htargets, hlasts⟩ := hrest.lasts
  have hsize := hgrows.size_le
  have hsize' := hrest.grows.size_le
  refine ⟨(hgrows.trans hrest.grows).mono fun x _ h => h.elim id id, e :: edges, ?_, ?_, ?_⟩
  · rw [← List.append_cons] at hedges
    exact hedges
  · intro e' he'
    rcases List.mem_cons.mp he' with rfl | he'
    · exact ⟨Nat.lt_of_lt_of_le htarget hsize', hcall⟩
    · exact htargets e' he'
  · intro N touched hN hkeep
    -- The ways that come later touch the decision only, which is older than this way.
    refine himp edges N ?_ ?_
    · refine hway N _ (hrest.grows.trans hN) ?_
      rintro x hx hxlt (h | h)
      · omega
      · exact hkeep x hx (by omega) h
    · exact hlasts N touched hN fun x hx hxlt => hkeep x (by omega) hxlt

/-- A choice: behind the decision come the ways, and all of them lead to a state that was added
right after the decision. -/
theorem piece_alt {n m : Network} {a : Nat} (rule : RuleIndex) {es : List (Expr Label RuleIndex)}
    (hn : n.Tidy) (ha : n.Has a [])
    (hfan : ((n.link rule a .decision).network.addState rule .basic).Fan n.states.size [] m
      fun edges N => N.Branches es edges (n.states.size + 1)) :
    n.Piece a ⟨m, n.states.size + 1⟩ fun N => N.Wired (.alt es) a (n.states.size + 1) := by
  have hlt : a < n.states.size := ha.lt
  obtain ⟨hlink, hd, hdInner, hsource⟩ := extend_spec (e := .epsilon n.states.size) rule .decision
    (by decide) rfl rfl hn ha (by simp)
  let linked := (n.link rule a .decision).network
  have hsize : linked.states.size = n.states.size + 1 := size_link rule n a .decision
  -- The state where the ways join is there before the ways are.
  have hjoin := grows_addState linked rule .basic (by decide)
  have hjoinHas := has_addState linked rule .basic (by decide)
  have hstartSize : ((n.link rule a .decision).network.addState rule .basic).states.size =
      n.states.size + 2 := by
    rw [size_addState]
    exact congrArg (· + 1) hsize
  rw [hsize] at hjoinHas
  obtain ⟨edges, hedges, htargets, hlasts⟩ := hfan.lasts
  have hfinal := hfan.grows.has hjoinHas (by omega)
  have hfanSize := hfan.grows.size_le
  refine ⟨?_, hfinal, Or.inr (Nat.le_add_right _ 1), ?_⟩
  · refine ((hlink.trans hjoin).trans hfan.grows).mono ?_
    rintro x hx ((h | h) | h)
    · exact h
    · exact h.elim
    · omega
  · intro N touched hN hkeep
    have hnot : ∀ x, x = a ∨ n.states.size ≤ x → x ≠ n.states.size + 1 → x < m.states.size →
        ¬ touched x := fun x hx hne hxlt hxt => hne (hkeep x hx hxlt hxt)
    refine .alt ?_ (hN.leads hedges (hnot _ (by omega) (by omega) hedges.lt) fun e he =>
      (htargets e he).1) ?_
    · refine ((hjoin.trans hfan.grows).trans hN).leads_epsilon hsource ?_ hdInner.lt
      rintro ((h | h) | h)
      · exact h
      · omega
      · exact hnot a (Or.inl rfl) (by omega) (by omega) h
    · exact hlasts N touched hN fun x hx hxlt => hnot x (by omega) (by omega) hxlt

/-- Operators: behind the decision come the gates, and last an edge to the exit. -/
theorem piece_operators {n m : Network} {a : Nat} (rule : RuleIndex)
    {P : List Edge → Network → Prop} (hn : n.Tidy) (ha : n.Has a [])
    (hfan : (n.link rule a .decision).network.Fan n.states.size [] m P) :
    n.Piece a (m.link rule n.states.size .basic) fun N => ∃ gates,
      N.Leads a [.epsilon n.states.size] ∧ P gates N ∧
        N.Leads n.states.size (gates ++ [.epsilon m.states.size]) := by
  have hlt : a < n.states.size := ha.lt
  obtain ⟨hlink, -, hdInner, hsource⟩ := extend_spec (e := .epsilon n.states.size) rule .decision
    (by decide) rfl rfl hn ha (by simp)
  have hsize := size_link rule n a .decision
  have hfanSize := hfan.grows.size_le
  obtain ⟨gates, hgates, htargets, hlasts⟩ := hfan.lasts
  obtain ⟨hlast, hexit, -, hentry⟩ := extend_spec (e := .epsilon m.states.size) rule .basic
    (by decide) rfl rfl (hfan.grows.tidy (hlink.tidy hn)) hgates fun e he => (htargets e he).2
  have hlastSize := hlast.size_le
  refine ⟨?_, hexit, Or.inr ?_, ?_⟩
  · refine ((hlink.trans hfan.grows).trans hlast).mono ?_
    intro x hx htouched
    omega
  · show n.states.size ≤ m.states.size
    omega
  · intro N touched hN hkeep
    have hnot : ∀ x, x = a ∨ n.states.size ≤ x → x < m.states.size → ¬ touched x := by
      intro x hx hxlt hxt
      have hsame : x = m.states.size := hkeep x hx (Nat.lt_of_lt_of_le hxlt hlastSize) hxt
      omega
    refine ⟨gates, ?_, ?_, ?_⟩
    · refine ((hfan.grows.trans hlast).trans hN).leads_epsilon hsource ?_ hdInner.lt
      rintro ((h | h) | h)
      · omega
      · omega
      · exact hnot a (Or.inl rfl) (by omega) h
    · refine hlasts N _ (hlast.trans hN) ?_
      rintro x hx hxlt (h | h)
      · omega
      · exact hnot x (by omega) hxlt h
    · refine hN.leads hentry (hnot _ (by omega) (by omega)) ?_
      intro e he
      rcases List.mem_append.mp he with he | he
      · exact Nat.lt_of_lt_of_le (htargets e he).1 hlastSize
      · rw [List.mem_singleton.mp he]
        exact hexit.lt

/-! ### Compiling expressions -/

section Compile

variable (rule : RuleIndex) (n : Network) (a : Nat)

/-- The number behind a link. -/
theorem nextId_link (kind : StateKind) :
    (n.link rule a kind).network.nextId = n.states.size + 1 :=
  size_link rule n a kind

/-- A choice is compiled between its decision and the state where the ways join. -/
theorem compile_alt (es : List (Expr Label RuleIndex)) :
    (Expr.alt es).compile rule ⟨n, a⟩ =
      ⟨Expr.compileAlt rule n.states.size (n.states.size + 1) es
        ((n.link rule a .decision).network.addState rule .basic), n.states.size + 1⟩ := by
  simp only [Expr.compile, nextId_link]
  rfl

/-- An optional part is compiled between the states of a branch, and its end leads past it. -/
theorem compile_optional (body : Expr Label RuleIndex) (greedy : Bool) :
    (Expr.optional body greedy).compile rule ⟨n, a⟩ =
      ⟨(body.compile rule ⟨n.branch rule a greedy, n.states.size + 1⟩).network.addEdge
          (body.compile rule ⟨n.branch rule a greedy, n.states.size + 1⟩).exit
          (.epsilon (n.states.size + 2)), n.states.size + 2⟩ := by
  simp only [Expr.compile, nextId_link]
  rfl

/-- The end of a repeated part leads back to the decision. -/
theorem compile_star (body : Expr Label RuleIndex) (greedy : Bool) :
    (Expr.star body greedy).compile rule ⟨n, a⟩ =
      ⟨(body.compile rule ⟨n.branch rule a greedy, n.states.size + 1⟩).network.addEdge
          (body.compile rule ⟨n.branch rule a greedy, n.states.size + 1⟩).exit
          (.epsilon n.states.size), n.states.size + 2⟩ := by
  simp only [Expr.compile, nextId_link]
  rfl

/-- A part that is read at least once is compiled before its decision. -/
theorem compile_plus (body : Expr Label RuleIndex) (greedy : Bool) {g : Growth}
    (hg : body.compile rule ⟨(n.link rule a .basic).network, n.states.size⟩ = g) :
    (Expr.plus body greedy).compile rule ⟨n, a⟩ =
      ⟨((g.network.link rule g.exit .decision).network.addState rule .basic).decide
        g.network.states.size n.states.size (g.network.states.size + 1) greedy,
        g.network.states.size + 1⟩ := by
  have hlink : n.link rule a .basic = ⟨(n.link rule a .basic).network, n.states.size⟩ := rfl
  simp only [Expr.compile]
  rw [hlink, hg]
  simp only [nextId_link]
  rfl

end Compile

end Network

section

open Network

variable {u : Universe} {count : Nat} (rule : RuleIndex)

mutual

/-- Compiling an expression adds its piece. -/
theorem Expr.compile_piece : ∀ (e : Expr Label RuleIndex) {n : Network} {a : Nat},
    n.Ready u count → n.Has a [] → e.Fits (Label.Proper u) (· < count) →
      n.Piece a (e.compile rule ⟨n, a⟩) fun N => N.Wired e a (e.compile rule ⟨n, a⟩).exit
  | .terminal l, n, a, hn, ha, hfits => by
      rw [Expr.Fits] at hfits
      exact piece_read rule hn ha hfits
  | .rule callee, n, a, hn, ha, hfits => by
      rw [Expr.Fits] at hfits
      exact (piece_call rule 0 hn ha hfits).imp fun N hN => .rule hN
  | .empty, n, a, hn, ha, _ => by
      refine ⟨(Grows.refl n).mono fun _ _ h => h.elim, ha, Or.inl rfl, ?_⟩
      intro N touched hN hkeep
      exact .empty
  | .seq es, n, a, hn, ha, hfits => by
      rw [Expr.Fits] at hfits
      exact Expr.compileSeq_piece es hn ha hfits
  | .alt es, n, a, hn, ha, hfits => by
      rw [Expr.Fits] at hfits
      obtain ⟨hlink, hd, -, -⟩ := extend_spec (e := .epsilon n.states.size) rule .decision
        (by decide) rfl rfl hn.tidy ha (by simp)
      have hready := hlink.ready hn
      have hjoin := grows_addState (n.link rule a .decision).network rule .basic (by decide)
      have hinner := inner_addState (n.link rule a .decision).network rule .basic hready.tidy
      rw [size_link] at hinner
      rw [compile_alt]
      exact piece_alt rule hn.tidy ha
        (Expr.compileAlt_fan es (hjoin.ready hready) (hjoin.has hd id) (by simp) hinner hfits)
  | .optional body greedy, n, a, hn, ha, hfits => by
      rw [Expr.Fits] at hfits
      have hb := branched_branch rule greedy hn.tidy ha
      have hbody := Expr.compile_piece body (hb.grows.ready hn) hb.inside hfits
      rw [compile_optional]
      refine (piece_part hn.tidy ha (Or.inr rfl) hbody).imp ?_
      rintro N ⟨hsource, hways, hbody, hlast⟩
      exact .optional hsource hways hbody hlast
  | .star body greedy, n, a, hn, ha, hfits => by
      rw [Expr.Fits] at hfits
      have hb := branched_branch rule greedy hn.tidy ha
      have hbody := Expr.compile_piece body (hb.grows.ready hn) hb.inside hfits
      rw [compile_star]
      refine (piece_part hn.tidy ha (Or.inl rfl) hbody).imp ?_
      rintro N ⟨hsource, hways, hbody, hlast⟩
      exact .star hsource hways hbody hlast
  | .plus body greedy, n, a, hn, ha, hfits => by
      rw [Expr.Fits] at hfits
      obtain ⟨hlink, hinside, -, -⟩ := extend_spec (e := .epsilon n.states.size) rule .basic
        (by decide) rfl rfl hn.tidy ha (by simp)
      have hbody := Expr.compile_piece body (hlink.ready hn) hinside hfits
      rw [compile_plus rule n a body greedy rfl]
      refine (piece_again rule greedy hn.tidy ha hbody).imp ?_
      rintro N ⟨hsource, hbody, hlast, hways⟩
      exact .plus hsource hbody hlast hways

/-- Compiling a sequence adds the pieces of its parts, one behind the other. -/
theorem Expr.compileSeq_piece : ∀ (es : List (Expr Label RuleIndex)) {n : Network} {a : Nat},
    n.Ready u count → n.Has a [] → Expr.AllFit (Label.Proper u) (· < count) es →
      n.Piece a (Expr.compileSeq rule es ⟨n, a⟩) fun N =>
        N.Wired (.seq es) a (Expr.compileSeq rule es ⟨n, a⟩).exit
  | [], n, a, hn, ha, _ => by
      refine ⟨(Grows.refl n).mono fun _ _ h => h.elim, ha, Or.inl rfl, ?_⟩
      intro N touched hN hkeep
      exact .seqNil
  | e :: es, n, a, hn, ha, hfits => by
      rw [Expr.AllFit] at hfits
      have hfirst := Expr.compile_piece e hn ha hfits.1
      have hrest := Expr.compileSeq_piece es (hfirst.grows.ready hn) hfirst.exit_has hfits.2
      refine (hfirst.trans hrest ha.lt).imp ?_
      rintro N ⟨hwired, hwired'⟩
      exact .seqCons hwired hwired'

/-- Compiling alternatives adds a way for each of them. -/
theorem Expr.compileAlt_fan : ∀ (es : List (Expr Label RuleIndex)) {n : Network} {d join : Nat}
    {before : List Edge}, n.Ready u count → n.Has d before →
      (∀ e ∈ before, e.isCall = false) → n.Inner join →
      Expr.AllFit (Label.Proper u) (· < count) es →
        n.Fan d before (Expr.compileAlt rule d join es n) fun edges N => N.Branches es edges join
  | [], n, d, join, before, hn, hd, _, _, _ => .nil hd fun N => .nil
  | e :: es, n, d, join, before, hn, hd, hbefore, hjoin, hfits => by
      rw [Expr.AllFit] at hfits
      obtain ⟨hopen, hinside, -, -⟩ := extend_spec (e := .epsilon n.states.size) rule .basic
        (by decide) rfl rfl hn.tidy hd hbefore
      have hpiece := Expr.compile_piece e (hopen.ready hn) hinside hfits.1
      obtain ⟨hgrows, hedge, htarget, hway⟩ := way_spec rfl rfl hn.tidy hd hbefore hjoin hpiece
      have hrest := Expr.compileAlt_fan es (hgrows.ready hn) hedge
        (isCall_append_singleton hbefore rfl) (hgrows.inner hjoin) hfits.2
      refine .cons rfl hd.lt hgrows htarget hway hrest ?_
      rintro edges N ⟨hwired, hlast⟩ hbranches
      exact .cons hwired hlast hbranches

end

/-- Compiling operators adds their gates. -/
theorem Expr.compileOperators_fan (hrule : rule < count) :
    ∀ (es : List (Expr Label RuleIndex)) (level : Int) {n : Network} {entry : Nat}
      {before : List Edge}, n.Ready u count → n.Has entry before →
        (∀ e ∈ before, e.isCall = false) → n.Inner entry →
        Expr.AllFit (Label.Proper u) (· < count) es →
          n.Fan entry before (Expr.compileOperators rule entry es level n) fun edges N =>
            N.Gates rule entry es level edges
  | [], level, n, entry, before, _, hd, _, _, _ => .nil hd fun N => .nil
  | e :: es, level, n, entry, before, hn, hd, hbefore, hentry, hfits => by
      rw [Expr.AllFit] at hfits
      obtain ⟨hopen, hinside, -, -⟩ := extend_spec (e := .gate n.states.size level) rule .basic
        (by decide) rfl rfl hn.tidy hd hbefore
      have hready := hopen.ready hn
      have hoperator := Expr.compile_piece rule e hready hinside hfits.1
      have hoperand := piece_call rule (level + 1) (hoperator.grows.ready hready)
        hoperator.exit_has hrule
      obtain ⟨hgrows, hedge, htarget, hway⟩ :=
        way_spec rfl rfl hn.tidy hd hbefore hentry (hoperator.trans hoperand hinside.lt)
      have hrest := Expr.compileOperators_fan hrule es (level - 1) (hgrows.ready hn) hedge
        (isCall_append_singleton hbefore rfl) (hgrows.inner hentry) hfits.2
      refine .cons rfl hd.lt hgrows htarget hway hrest ?_
      rintro edges N ⟨⟨hwired, hcalls⟩, hlast⟩ hgates
      exact .cons hwired hcalls hlast hgates

/-- Compiling the body of a rule adds its piece. -/
theorem Body.compile_piece (hrule : rule < count) (body : Body Label RuleIndex) {n : Network}
    {a : Nat} (hn : n.Ready u count) (ha : n.Has a [])
    (hfits : body.Fits (Label.Proper u) (· < count)) :
    n.Piece a (body.compile rule ⟨n, a⟩) fun N =>
      N.WiredBody rule body a (body.compile rule ⟨n, a⟩).exit := by
  cases body with
  | plain e => exact (e.compile_piece rule hn ha hfits).imp fun N hN => .plain hN
  | precedence primaries operators =>
      obtain ⟨hprimaries, hoperators⟩ := hfits
      have hprimary := (Expr.alt primaries).compile_piece rule hn ha
        (by rw [Expr.Fits]; exact hprimaries)
      have hready := hprimary.grows.ready hn
      obtain ⟨hlink, hentry, hinner, -⟩ := extend_spec
        (e := .epsilon ((Expr.alt primaries).compile rule ⟨n, a⟩).network.states.size)
        rule .decision (by decide) rfl rfl hready.tidy hprimary.exit_has (by simp)
      have hfan := Expr.compileOperators_fan rule hrule operators operators.length
        (hlink.ready hready) hentry (by simp) hinner hoperators
      have hoperators := piece_operators rule hready.tidy hprimary.exit_has hfan
      refine (hprimary.trans hoperators ha.lt).imp ?_
      rintro N ⟨hwired, gates, hsource, hgates, hentry⟩
      exact .precedence hwired hsource hgates hentry

end

end Caret
