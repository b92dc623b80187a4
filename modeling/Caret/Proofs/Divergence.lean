import Mathlib
import Caret.Proofs.Conservation
import Caret.Proofs.Realization
import Caret.Proofs.Relabelling
import Caret.Proofs.Termination

/-!
# `Caret.Proofs.Divergence`: left recursion never comes to an end

Grammars with left recursion are rejected. `left_recursion_never_ends` says that nothing less would
do: where a cycle of calls can happen before the first token, a traversal of any rule on the cycle
goes on for ever, although the machine remembers the states that it passed.

The pushdown system of the network shows why. What is nullable can be passed without a token
(`Network.Passable`), and a rule that can be called first is entered without one
(`Network.Enters`), with one more call open. Each time round the cycle the same rule is entered
below more open calls (`Network.Realizes.exists_deep`). But a machine that comes to an end has
explored finitely many positions, and in these it has explored all that the pushdown system comes
to. So it cannot come to an end: some position that is still pending is not exhaustible
(`Position.Exhaustible`), and exploring it leaves another one of this kind
(`Machine.Next.inexhaustible`).
-/

set_option autoImplicit false

namespace Caret

open Relation

/-! ### Explorations that come to an end -/

/-- The position leads to finitely many positions, and all of them can be explored. -/
structure Position.Exhaustible (s : Setting) (p : Position) : Prop where
  finite : {q | p.Reaches s q}.Finite
  explored : ∀ q, p.Reaches s q → ∃ effects, s.explore q = .ok effects

/-- What leads to exhaustible positions only is exhaustible. -/
theorem Position.Exhaustible.of_visits {s : Setting} {p : Position} {effects : List Effect}
    (hexplore : s.explore p = .ok effects) (h : ∀ q ∈ visits effects, q.Exhaustible s) :
    p.Exhaustible s where
  finite := by
    -- The position itself, and what is reached from one of the positions that it visits.
    have hset : {q | p.Reaches s q} =
        {p} ∪ ⋃ r ∈ {r | r ∈ visits effects}, {q | r.Reaches s q} := by
      ext q
      simp [Position.reaches_iff hexplore, eq_comm]
    rw [hset]
    exact (Set.finite_singleton p).union
      ((List.finite_toSet _).biUnion fun r hr => (h r hr).finite)
  explored := by
    intro q hq
    rcases (Position.reaches_iff hexplore q).mp hq with rfl | ⟨r, hr, hq⟩
    · exact ⟨effects, hexplore⟩
    · exact (h r hr).explored q hq

namespace Machine

variable {s : Setting} {m m' : Machine}

/-- What an exploration visits is pending once its effects are applied. -/
theorem mem_pending_foldl_apply {effects : List Effect} {q : Position} (h : .visit q ∈ effects)
    (m : Machine) : .explore q ∈ (effects.foldl apply m).pending := by
  induction effects generalizing m with
  | nil => cases h
  | cons e effects ih =>
      rw [List.foldl_cons]
      rcases List.mem_cons.mp h with rfl | h
      · -- It is pushed by the first effect, and the later ones only push in front of it.
        obtain ⟨tasks, hpending, -⟩ := pending_foldl_apply effects (m.apply (.visit q))
        rw [hpending]
        exact List.mem_append_right _ List.mem_cons_self
      · exact ih h _

/-- The machine has a position to explore that cannot be exhausted. -/
def Inexhaustible (s : Setting) (m : Machine) : Prop :=
  ∃ p, .explore p ∈ m.pending ∧ ¬ p.Exhaustible s

/-- A step explores another task, or it leaves one of the positions that the endless one leads
to. -/
theorem Next.inexhaustible (h : Next s m m') (hm : m.Inexhaustible s) : m'.Inexhaustible s := by
  obtain ⟨p, hp, hendless⟩ := hm
  cases h.advance with
  | @explore p' rest effects hpending hexplore =>
      obtain ⟨tasks, hpending', -⟩ := pending_foldl_apply effects (m.withPending rest)
      rw [hpending] at hp
      rcases List.mem_cons.mp hp with heq | hp
      · -- The endless position is explored itself, so it leads to another one.
        cases heq
        obtain ⟨q, hq, hendless'⟩ : ∃ q ∈ visits effects, ¬ q.Exhaustible s := by
          by_contra hnone
          simp only [not_exists, not_and, not_not] at hnone
          exact hendless (.of_visits hexplore hnone)
        exact ⟨q, mem_pending_foldl_apply (mem_visits.mp hq) _, hendless'⟩
      · -- What an exploration finds comes in front of what is pending already.
        refine ⟨p, ?_, hendless⟩
        rw [hpending']
        exact List.mem_append_right _ hp
  | @drop p' g rest tried hpending _ =>
      rw [hpending] at hp
      rcases List.mem_cons.mp hp with heq | hp
      · cases heq
      · exact ⟨p, hp, hendless⟩
  | @jump p' q g rest r hpending _ _ _ _ _ =>
      rw [hpending] at hp
      rcases List.mem_cons.mp hp with heq | hp
      · cases heq
      · exact ⟨p, List.mem_cons_of_mem _ hp, hendless⟩

/-- A machine with an endless position always has something left to do. -/
theorem Reaches.pending_ne_nil (h : Reaches s m m') (hm : m.Inexhaustible s) : m'.pending ≠ [] := by
  have hm' : m'.Inexhaustible s := by
    induction h with
    | refl => exact hm
    | tail _ hnext ih => exact hnext.inexhaustible ih
  obtain ⟨p, hp, -⟩ := hm'
  exact List.ne_nil_of_mem hp

end Machine

/-- Recovery rules do not keep an exploration from coming to an end. -/
theorem Position.Exhaustible.unguarded {s₀ s : Setting} (hs : s₀.Unguards s) {p : Position}
    (h : p.Exhaustible s) : p.Exhaustible s₀ := by
  -- Without recovery rules an exploration has the same effects except that nothing is watched.
  have hreaches : ∀ q, p.Reaches s₀ q → p.Reaches s q := by
    intro q hq
    induction hq with
    | refl => exact .refl
    | @tail q r _ hleads ih =>
        obtain ⟨effects, hexplore⟩ := h.explored q ih
        obtain ⟨effects₀, hexplore₀, hr⟩ := hleads
        cases (explore_unguarded hs hexplore).symm.trans hexplore₀
        exact ih.tail ⟨effects, hexplore, (List.mem_filter.mp hr).1⟩
  refine ⟨h.finite.subset hreaches, fun q hq => ?_⟩
  obtain ⟨effects, hexplore⟩ := h.explored q (hreaches q hq)
  exact ⟨_, explore_unguarded hs hexplore⟩

/-- An exhaustible position does not lead below arbitrarily many open calls. -/
theorem Position.Exhaustible.exists_depth {s : Setting} {p : Position} (h : p.Exhaustible s)
    (hn : s.network.Apart) (hs : s.options = .none) {w : List TokenType}
    (hw : s.stream = ⟨w.toArray⟩) (hp : p.Traced s p) :
    ∃ depth, ∀ c, ReflTransGen (Configuration.Step s.network w) p.configuration c →
      c.calls.length ≤ depth := by
  -- Finitely many positions are reached, and each configuration is that of one of them.
  obtain ⟨depth, hdepth⟩ := (h.finite.image fun q => q.calls.length).bddAbove
  refine ⟨depth, fun c hc => ?_⟩
  obtain ⟨q, hq, rfl⟩ := (hn.reflTransGen_step_iff hs hw hp h.explored c).mp hc
  exact hdepth ⟨q, hq, rfl⟩

/-! ### Ways without tokens -/

namespace Network

variable {n : Network} {a b : Nat} {edges : List Edge}

/-- The pushdown system comes from one state to the other without a token, whatever calls are
open. -/
def Passable (n : Network) (a b : Nat) : Prop :=
  ∀ calls, ReflTransGen (Configuration.Step n []) ⟨a, calls, 0⟩ ⟨b, calls, 0⟩

/-- The rule can be passed without a token. -/
def Crosses (n : Network) (r : RuleIndex) : Prop :=
  ∃ start stop, n.start? r = some start ∧ n.stop? r = some stop ∧ n.Passable start stop

/-- From the state the pushdown system comes to the start of a rule without a token, below one more
call. The rule of the state is open at level zero, so that no gate is closed. -/
def Enters (n : Network) (a : Nat) (callee : RuleIndex) : Prop :=
  ∃ start f, n.start? callee = some start ∧ ∀ calls, Configuration.level ⟨a, calls, 0⟩ ≤ 0 →
    ReflTransGen (Configuration.Step n []) ⟨a, calls, 0⟩
      ⟨start, ⟨callee, some f, 0⟩ :: calls, 0⟩

/-- To stay where one is takes no token. -/
theorem Passable.refl (n : Network) (a : Nat) : n.Passable a a := fun _ => .refl

/-- Two ways without tokens make one. -/
theorem Passable.trans {c : Nat} (h : n.Passable a b) (h' : n.Passable b c) : n.Passable a c :=
  fun calls => (h calls).trans (h' calls)

/-- In front of entering a rule, one may go any way without tokens. -/
theorem Passable.enters {callee : RuleIndex} (h : n.Passable a b) (h' : n.Enters b callee) :
    n.Enters a callee := by
  obtain ⟨start, f, hstart, hsteps⟩ := h'
  exact ⟨start, f, hstart, fun calls hlevel => (h calls).trans (hsteps calls hlevel)⟩

/-- The edges of a state that is no stop state can be taken whatever calls are open. -/
theorem Leads.departs (h : n.Leads a edges) {e : Edge} (he : e ∈ edges) (calls : List Call) :
    Configuration.Departs n ⟨a, calls, 0⟩ e ⟨a, calls, 0⟩ ∧ e.target < n.states.size := by
  obtain ⟨⟨s, hs, hkind, rfl⟩, hlt⟩ := h
  exact ⟨.inside hs hkind he, hlt e he⟩

/-- An edge that just moves on is a way without tokens. -/
theorem Leads.passable (h : n.Leads a edges) (he : .epsilon b ∈ edges) : n.Passable a b := by
  intro calls
  obtain ⟨hdeparts, hlt⟩ := h.departs he calls
  exact .single ⟨_, _, hdeparts, hlt, .epsilon b⟩

/-- A call at level zero enters its rule. -/
theorem Calls.enters {callee : RuleIndex} {f : Nat} (h : n.Calls a callee 0 f) :
    n.Enters a callee := by
  obtain ⟨start, hstart, hleads, -⟩ := h
  refine ⟨start, f, hstart, fun calls _ => ?_⟩
  obtain ⟨hdeparts, hlt⟩ := hleads.departs List.mem_cons_self calls
  exact .single ⟨_, _, hdeparts, hlt, .call start callee f 0⟩

/-- A gate of a level that is not negative is open at level zero. It leads to what is entered behind
it. -/
theorem Leads.enters_of_gate (h : n.Leads a edges) {l : Int} (he : .gate b l ∈ edges)
    (hl : 0 ≤ l) {callee : RuleIndex} (henters : n.Enters b callee) : n.Enters a callee := by
  obtain ⟨start, f, hstart, hsteps⟩ := henters
  refine ⟨start, f, hstart, fun calls hlevel => ?_⟩
  obtain ⟨hdeparts, hlt⟩ := h.departs he calls
  exact .head ⟨_, _, hdeparts, hlt, .gate b (Int.le_trans hlevel hl)⟩ (hsteps calls hlevel)

/-- A rule that can be passed brings its caller to where it goes on. -/
theorem Calls.passable {callee : RuleIndex} {f : Nat} {level : Int} (h : n.Calls a callee level f)
    (hcrosses : n.Crosses callee) : n.Passable a f := by
  intro calls
  obtain ⟨start, hstart, hleads, hlt', stop, last, hstop, hlast, hkind, hfilter⟩ := h
  obtain ⟨start', stop', hstart', hstop', hpassable⟩ := hcrosses
  cases hstart.symm.trans hstart'
  cases hstop.symm.trans hstop'
  obtain ⟨hdeparts, hlt⟩ := hleads.departs List.mem_cons_self calls
  -- Call the rule, pass it, and return.
  have henter : Configuration.Step n [] ⟨a, calls, 0⟩
      ⟨start, ⟨callee, some f, level⟩ :: calls, 0⟩ :=
    ⟨_, _, hdeparts, hlt, .call start callee f level⟩
  -- One of the edges of the stop state leads back to the caller.
  have hmem : Edge.epsilon f ∈ last.edges := by
    have hmem : Edge.epsilon f ∈ last.edges.filter fun e => e.target = f := by
      rw [hfilter]
      exact List.mem_cons_self
    exact (List.mem_filter.mp hmem).1
  have hreturn : Configuration.Step n [] ⟨stop, ⟨callee, some f, level⟩ :: calls, 0⟩
      ⟨f, calls, 0⟩ :=
    ⟨.epsilon f, ⟨stop, calls, 0⟩, .leaving hlast hkind rfl hmem rfl, hlt', .epsilon f⟩
  exact .head henter ((hpassable _).tail hreturn)

end Network

/-! ### Nullable expressions can be passed -/

section Pieces

open Network

variable {n : Network} {known : RuleIndex → Bool}

/-- Whether greedy or not, a decision leads into its part and past it. -/
theorem epsilon_mem_ways (greedy : Bool) (i o : Nat) :
    .epsilon i ∈ ways greedy i o ∧ .epsilon o ∈ ways greedy i o := by
  cases greedy <;> simp [ways]

mutual

/-- A nullable expression without empty choices can be passed, if the rules that are known to be
nullable can. -/
theorem Expr.passable (h : ∀ r, known r = true → n.Crosses r) :
    ∀ {e : Expr Label RuleIndex} {a b : Nat}, .alt [] ∉ e.nodes → n.Wired e a b →
      e.nullable known = true → n.Passable a b
  | .terminal _, _, _, _, _, hnullable => by cases hnullable
  | .rule r, _, _, _, .rule hcalls, hnullable => hcalls.passable (h r hnullable)
  | .empty, _, _, _, .empty, _ => .refl _ _
  | .seq _, _, _, hnodes, hwired, hnullable =>
      Expr.passable_seq h (fun hmem => hnodes (List.mem_cons_of_mem _ hmem)) hwired hnullable
  | .alt [], _, _, hnodes, _, _ => absurd List.mem_cons_self hnodes
  | .alt (_ :: _), _, _, hnodes, .alt ha hd hbranches, hnullable => by
      obtain ⟨i, hi, hpassable⟩ := Expr.passable_alt h
        (fun hmem => hnodes (List.mem_cons_of_mem _ hmem)) hbranches hnullable
      exact ((ha.passable List.mem_cons_self).trans (hd.passable hi)).trans hpassable
  | .optional _ greedy, _, _, _, .optional (d := d) (i := i) ha hd _ _, _ =>
      (ha.passable List.mem_cons_self).trans (hd.passable (epsilon_mem_ways greedy i _).2)
  | .star _ greedy, _, _, _, .star (d := d) (i := i) ha hd _ _, _ =>
      (ha.passable List.mem_cons_self).trans (hd.passable (epsilon_mem_ways greedy i _).2)
  | .plus e greedy, _, _, hnodes, .plus (i := i) ha hwired hx hd, hnullable => by
      have hbody := Expr.passable (e := e) h (fun hmem => hnodes (List.mem_cons_of_mem _ hmem))
        hwired hnullable
      exact (((ha.passable List.mem_cons_self).trans hbody).trans
        (hx.passable List.mem_cons_self)).trans (hd.passable (epsilon_mem_ways greedy i _).2)

/-- A sequence can be passed if all its parts can. -/
theorem Expr.passable_seq (h : ∀ r, known r = true → n.Crosses r) :
    ∀ {es : List (Expr Label RuleIndex)} {a b : Nat}, .alt [] ∉ Expr.nodesOfList es →
      n.Wired (.seq es) a b → Expr.allNullable known es = true → n.Passable a b
  | [], _, _, _, .seqNil, _ => .refl _ _
  | e :: es, _, _, hnodes, .seqCons hfirst hrest, hnullable => by
      rw [Expr.allNullable, Bool.and_eq_true] at hnullable
      rw [Expr.nodesOfList, List.mem_append, not_or] at hnodes
      exact (Expr.passable h hnodes.1 hfirst hnullable.1).trans
        (Expr.passable_seq h hnodes.2 hrest hnullable.2)

/-- One of the alternatives can be passed. -/
theorem Expr.passable_alt (h : ∀ r, known r = true → n.Crosses r) :
    ∀ {es : List (Expr Label RuleIndex)} {edges : List Edge} {b : Nat},
      .alt [] ∉ Expr.nodesOfList es → n.Branches es edges b → Expr.anyNullable known es = true →
        ∃ i, .epsilon i ∈ edges ∧ n.Passable i b
  | [], _, _, _, _, hnullable => by cases hnullable
  | e :: es, _, _, hnodes, .cons (i := i) hwired hx hrest, hnullable => by
      rw [Expr.anyNullable, Bool.or_eq_true] at hnullable
      rw [Expr.nodesOfList, List.mem_append, not_or] at hnodes
      rcases hnullable with hnullable | hnullable
      · exact ⟨i, List.mem_cons_self, (Expr.passable h hnodes.1 hwired hnullable).trans
          (hx.passable List.mem_cons_self)⟩
      · obtain ⟨i', hi', hpassable⟩ := Expr.passable_alt h hnodes.2 hrest hnullable
        exact ⟨i', List.mem_cons_of_mem _ hi', hpassable⟩

end

/-! ### Rules that can be called first are entered -/

mutual

/-- A rule that an expression can call first is entered from the start of its piece. -/
theorem Expr.enters (h : ∀ r, known r = true → n.Crosses r) {callee : RuleIndex} :
    ∀ {e : Expr Label RuleIndex} {a b : Nat}, .alt [] ∉ e.nodes → n.Wired e a b →
      callee ∈ e.leftCalls known → n.Enters a callee
  | .terminal _, _, _, _, _, hcall => by cases hcall
  | .rule r, _, _, _, .rule hcalls, hcall => by
      cases List.mem_singleton.mp hcall
      exact hcalls.enters
  | .empty, _, _, _, _, hcall => by cases hcall
  | .seq _, _, _, hnodes, hwired, hcall =>
      Expr.enters_seq h (fun hmem => hnodes (List.mem_cons_of_mem _ hmem)) hwired hcall
  | .alt _, _, _, hnodes, .alt ha hd hbranches, hcall => by
      obtain ⟨i, hi, henters⟩ := Expr.enters_alt h
        (fun hmem => hnodes (List.mem_cons_of_mem _ hmem)) hbranches hcall
      exact ((ha.passable List.mem_cons_self).trans (hd.passable hi)).enters henters
  | .optional e greedy, _, _, hnodes, .optional (b := b) ha hd hwired _, hcall =>
      ((ha.passable List.mem_cons_self).trans (hd.passable (epsilon_mem_ways greedy _ b).1)).enters
        (Expr.enters (e := e) h (fun hmem => hnodes (List.mem_cons_of_mem _ hmem)) hwired hcall)
  | .star e greedy, _, _, hnodes, .star (b := b) ha hd hwired _, hcall =>
      ((ha.passable List.mem_cons_self).trans (hd.passable (epsilon_mem_ways greedy _ b).1)).enters
        (Expr.enters (e := e) h (fun hmem => hnodes (List.mem_cons_of_mem _ hmem)) hwired hcall)
  | .plus e _, _, _, hnodes, .plus ha hwired _ _, hcall =>
      (ha.passable List.mem_cons_self).enters
        (Expr.enters (e := e) h (fun hmem => hnodes (List.mem_cons_of_mem _ hmem)) hwired hcall)

/-- A sequence calls first what its first part does, and what the rest does if the first part is
nullable. -/
theorem Expr.enters_seq (h : ∀ r, known r = true → n.Crosses r) {callee : RuleIndex} :
    ∀ {es : List (Expr Label RuleIndex)} {a b : Nat}, .alt [] ∉ Expr.nodesOfList es →
      n.Wired (.seq es) a b → callee ∈ Expr.leftCallsOfSeq known es → n.Enters a callee
  | [], _, _, _, _, hcall => by cases hcall
  | e :: es, _, _, hnodes, .seqCons hfirst hrest, hcall => by
      rw [Expr.nodesOfList, List.mem_append, not_or] at hnodes
      rw [Expr.leftCallsOfSeq, List.mem_append] at hcall
      rcases hcall with hcall | hcall
      · exact Expr.enters h hnodes.1 hfirst hcall
      · -- The call comes behind the first part, which is nullable.
        split at hcall
        · rename_i hnullable
          exact (Expr.passable h hnodes.1 hfirst hnullable).enters
            (Expr.enters_seq h hnodes.2 hrest hcall)
        · cases hcall

/-- One of the alternatives enters the rule. -/
theorem Expr.enters_alt (h : ∀ r, known r = true → n.Crosses r) {callee : RuleIndex} :
    ∀ {es : List (Expr Label RuleIndex)} {edges : List Edge} {b : Nat},
      .alt [] ∉ Expr.nodesOfList es → n.Branches es edges b →
        callee ∈ Expr.leftCallsOfAlt known es → ∃ i, .epsilon i ∈ edges ∧ n.Enters i callee
  | [], _, _, _, _, hcall => by cases hcall
  | e :: es, _, _, hnodes, .cons (i := i) hwired _ hrest, hcall => by
      rw [Expr.nodesOfList, List.mem_append, not_or] at hnodes
      rw [Expr.leftCallsOfAlt, List.mem_append] at hcall
      rcases hcall with hcall | hcall
      · exact ⟨i, List.mem_cons_self, Expr.enters h hnodes.1 hwired hcall⟩
      · obtain ⟨i', hi', henters⟩ := Expr.enters_alt h hnodes.2 hrest hcall
        exact ⟨i', List.mem_cons_of_mem _ hi', henters⟩

end

/-- Behind its gate an operator enters the rules that it can call first. All gates are open at level
zero. -/
theorem Network.Gates.enters (h : ∀ r, known r = true → n.Crosses r) {callee r : RuleIndex}
    {entry : Nat} : ∀ {es : List (Expr Label RuleIndex)} {level : Int} {gates : List Edge},
      .alt [] ∉ Expr.nodesOfList es → n.Gates r entry es level gates → es.length ≤ level →
        callee ∈ Expr.leftCallsOfAlt known es →
          ∃ i l, .gate i l ∈ gates ∧ 0 ≤ l ∧ n.Enters i callee
  | [], _, _, _, _, _, hcall => by cases hcall
  | e :: es, level, _, hnodes, .cons (i := i) hwired _ _ hrest, hlevel, hcall => by
      rw [Expr.nodesOfList, List.mem_append, not_or] at hnodes
      rw [Expr.leftCallsOfAlt, List.mem_append] at hcall
      rw [List.length_cons] at hlevel
      rcases hcall with hcall | hcall
      · exact ⟨i, level, List.mem_cons_self, by omega, Expr.enters h hnodes.1 hwired hcall⟩
      · obtain ⟨i', l, hi', hl, henters⟩ := Gates.enters h hnodes.2 hrest (by omega) hcall
        exact ⟨i', l, List.mem_cons_of_mem _ hi', hl, henters⟩

/-- A choice can be passed if one of its alternatives is nullable. -/
theorem Network.Wired.passable_of_any (h : ∀ r, known r = true → n.Crosses r)
    {es : List (Expr Label RuleIndex)} {a b : Nat} (hnodes : .alt [] ∉ Expr.nodesOfList es)
    (hwired : n.Wired (.alt es) a b) (hnullable : Expr.anyNullable known es = true) :
    n.Passable a b := by
  cases hwired with
  | alt ha hd hbranches =>
      obtain ⟨i, hi, hpassable⟩ := Expr.passable_alt h hnodes hbranches hnullable
      exact ((ha.passable List.mem_cons_self).trans (hd.passable hi)).trans hpassable

/-- A nullable body can be passed. Its operators are left out. -/
theorem Network.WiredBody.passable (h : ∀ r, known r = true → n.Crosses r)
    {body : Body Label RuleIndex} {r : RuleIndex} {a b : Nat}
    (hchoices : ∀ e ∈ body.exprs, .alt [] ∉ e.nodes) (hwired : n.WiredBody r body a b)
    (hnullable : body.nullable known = true) : n.Passable a b := by
  cases hwired with
  | plain hwired => exact Expr.passable h (hchoices _ List.mem_cons_self) hwired hnullable
  | @precedence primaries operators _ m entry _ gates hprimary hentry _ hlast =>
      -- Behind all the gates there is an edge to the end of the body.
      have hnodes := Expr.not_mem_nodesOfList fun e he =>
        hchoices e (List.mem_append_left operators he)
      have hend : Edge.epsilon b ∈ gates ++ [.epsilon b] := by simp
      exact ((hprimary.passable_of_any h hnodes hnullable).trans
        (hentry.passable List.mem_cons_self)).trans (hlast.passable hend)

/-- A rule that a body can call first is entered from the start of the body. -/
theorem Network.WiredBody.enters (h : ∀ r, known r = true → n.Crosses r)
    {body : Body Label RuleIndex} {r callee : RuleIndex} {a b : Nat}
    (hchoices : ∀ e ∈ body.exprs, .alt [] ∉ e.nodes) (hwired : n.WiredBody r body a b)
    (hcall : callee ∈ body.leftCalls known) : n.Enters a callee := by
  cases hwired with
  | plain hwired => exact Expr.enters h (hchoices _ List.mem_cons_self) hwired hcall
  | @precedence primaries operators _ m entry _ gates hprimary hentry hgates hlast =>
      have hprimaries := Expr.not_mem_nodesOfList fun e he =>
        hchoices e (List.mem_append_left operators he)
      have hoperators := Expr.not_mem_nodesOfList fun e he =>
        hchoices e (List.mem_append_right primaries he)
      rw [Body.leftCalls, List.mem_append] at hcall
      rcases hcall with hcall | hcall
      · cases hprimary with
        | alt ha hd hbranches =>
            obtain ⟨i, hi, henters⟩ := Expr.enters_alt h hprimaries hbranches hcall
            exact ((ha.passable List.mem_cons_self).trans (hd.passable hi)).enters henters
      · -- The call is one of an operator, behind a primary that is nullable.
        split at hcall
        · rename_i hnullable
          obtain ⟨i, l, hi, hl, henters⟩ := hgates.enters h hoperators (Int.le_refl _) hcall
          exact ((hprimary.passable_of_any h hprimaries hnullable).trans
            (hentry.passable List.mem_cons_self)).enters
              (hlast.enters_of_gate (List.mem_append_left _ hi) hl henters)
        · cases hcall

end Pieces

/-! ### Going round a cycle of calls -/

section Cycle

variable {n : Network} {rules : List (Rule Label RuleIndex)} {u : Universe}

/-- The rules that are marked as nullable can be passed: this is closed under the rounds. -/
theorem Network.Realizes.crosses (hn : n.Realizes rules u)
    (hchoices : ∀ rule ∈ rules, ∀ e ∈ rule.body.exprs, .alt [] ∉ e.nodes) {r : RuleIndex}
    (hr : marked (nullableRules rules) r = true) : n.Crosses r := by
  refine of_marked (fun known hcrosses c rule hrule hnullable => ?_) hr
  obtain ⟨start, exit, stop, hstart, hstop, hwired, hlast⟩ := hn.wired c rule hrule
  have hbody := hwired.passable hcrosses (hchoices rule (List.mem_of_getElem? hrule)) hnullable
  exact ⟨start, stop, hstart, hstop, hbody.trans (hlast.passable List.mem_cons_self)⟩

/-- The pushdown system is at the start of the rule, which was called at level zero. -/
def Configuration.AtStart (n : Network) (r : RuleIndex) (c : Configuration) : Prop :=
  ∃ start follow calls, n.start? r = some start ∧ c = ⟨start, ⟨r, follow, 0⟩ :: calls, 0⟩

/-- The pushdown system comes from one configuration to another with more open calls. -/
def Configuration.Deepens (n : Network) (c d : Configuration) : Prop :=
  ReflTransGen (Configuration.Step n []) c d ∧ c.calls.length < d.calls.length

/-- From the start of a rule, the start of a rule that it can call first is reached. -/
theorem Network.Realizes.deepens (hn : n.Realizes rules u)
    (hchoices : ∀ rule ∈ rules, ∀ e ∈ rule.body.exprs, .alt [] ∉ e.nodes) {r callee : RuleIndex}
    (hcall : CallsFirst rules r callee) {c : Configuration} (hc : c.AtStart n r) :
    ∃ d, d.AtStart n callee ∧ c.Deepens n d := by
  rw [CallsFirst, leftCallsOf] at hcall
  split at hcall
  · rename_i rule hrule
    obtain ⟨start, exit, stop, hstart, -, hwired, -⟩ := hn.wired r rule hrule
    obtain ⟨start', follow, calls, hstart', rfl⟩ := hc
    cases hstart.symm.trans hstart'
    -- The rule was called at level zero, so the gates of its operators are open.
    obtain ⟨first, f, hfirst, hsteps⟩ := hwired.enters (fun _ => hn.crosses hchoices)
      (hchoices rule (List.mem_of_getElem? hrule)) hcall
    exact ⟨_, ⟨first, some f, _, hfirst, rfl⟩, hsteps _ (Int.le_refl 0), by simp⟩
  · cases hcall

/-- The same along a chain of such calls. Each call makes the stack longer. -/
theorem Network.Realizes.deepens_of_transGen (hn : n.Realizes rules u)
    (hchoices : ∀ rule ∈ rules, ∀ e ∈ rule.body.exprs, .alt [] ∉ e.nodes) {r callee : RuleIndex}
    (hcall : TransGen (CallsFirst rules) r callee) {c : Configuration} (hc : c.AtStart n r) :
    ∃ d, d.AtStart n callee ∧ c.Deepens n d := by
  induction hcall with
  | single hcall => exact hn.deepens hchoices hcall hc
  | tail _ hcall ih =>
      obtain ⟨d, hd, hsteps, hdeeper⟩ := ih
      obtain ⟨d', hd', hsteps', hdeeper'⟩ := hn.deepens hchoices hcall hd
      exact ⟨d', hd', hsteps.trans hsteps', Nat.lt_trans hdeeper hdeeper'⟩

/-- Round a cycle the pushdown system comes below as many open calls as one likes. -/
theorem Network.Realizes.exists_deep (hn : n.Realizes rules u)
    (hchoices : ∀ rule ∈ rules, ∀ e ∈ rule.body.exprs, .alt [] ∉ e.nodes) {r : RuleIndex}
    (hcycle : TransGen (CallsFirst rules) r r) {c : Configuration} (hc : c.AtStart n r)
    (depth : Nat) : ∃ d, d.AtStart n r ∧ ReflTransGen (Configuration.Step n []) c d ∧
      depth < d.calls.length := by
  induction depth with
  | zero =>
      obtain ⟨d, hd, hsteps, hdeeper⟩ := hn.deepens_of_transGen hchoices hcycle hc
      exact ⟨d, hd, hsteps, by omega⟩
  | succ depth ih =>
      obtain ⟨d, hd, hsteps, hdepth⟩ := ih
      -- Once more round the cycle makes at least one more call.
      obtain ⟨d', hd', hsteps', hdeeper⟩ := hn.deepens_of_transGen hchoices hcycle hd
      exact ⟨d', hd', hsteps.trans hsteps', by omega⟩

end Cycle

/-! ### Networks of rules with any labels -/

/-- The label that admits nothing. -/
def Label.mute : Label := .oneOf .empty

/-- A label whose symbols can be listed has the symbols that it admits. -/
theorem Label.proper_of_symbols {u : Universe} {l : Label} {set : IntervalSet} (hl : l.Canonical)
    (h : l.symbols u = .ok set) : l.Proper u := by
  have hvalues : l.values u = set.toList := by rw [values, h]
  rw [Proper, hvalues]
  exact ⟨fun t => (mem_symbols_iff hl h t).symm, set, h, rfl⟩

/-- Admitting nothing is no reason to fail: the label that admits nothing stands for the empty
set. -/
theorem Label.proper_mute (u : Universe) : Label.mute.Proper u :=
  proper_of_symbols IntervalSet.canonical_empty rfl

namespace Network

variable {rules : List (Rule Label RuleIndex)}

/-- The network without its labels is made of the pieces of the rules without their labels. -/
theorem realizes_mute (max : TokenType)
    (hreferences : ∀ rule ∈ rules, ∀ e ∈ rule.body.exprs, ∀ c, .rule c ∈ e.nodes →
      c < rules.length) :
    ((ofRules rules max).relabel fun _ => .mute).Realizes (rules.map (Rule.relabel fun _ => .mute))
      ⟨firstTokenType, max⟩ := by
  rw [relabel_ofRules]
  refine ofRules_realizes fun rule' hrule' => ?_
  obtain ⟨rule, hrule, rfl⟩ := List.mem_map.mp hrule'
  rw [List.length_map]
  exact Body.fits_map (fun _ => Label.proper_mute _) (hreferences rule hrule)

/-- A rule that calls another one first is there. -/
theorem exists_start_of_transGen (max : TokenType)
    (hreferences : ∀ rule ∈ rules, ∀ e ∈ rule.body.exprs, ∀ c, .rule c ∈ e.nodes →
      c < rules.length) {r callee : RuleIndex} (h : TransGen (CallsFirst rules) r callee) :
    ∃ start, (ofRules rules max).start? r = some start := by
  obtain ⟨c, hcall, -⟩ := TransGen.head'_iff.mp h
  rw [CallsFirst, leftCallsOf] at hcall
  split at hcall
  · rename_i rule hrule
    -- That a rule has a start state does not depend on labels, so those of the network may be
    -- dropped.
    have hrule' : (rules.map (Rule.relabel fun _ => .mute))[r]? =
        some (rule.relabel fun _ => .mute) := by
      rw [List.getElem?_map, hrule, Option.map_some]
    obtain ⟨start, -, -, hstart, -⟩ := (realizes_mute max hreferences).wired r _ hrule'
    exact ⟨start, hstart⟩
  · cases hcall

/-- In a tidy network no call leads to a state that the machine remembers, and none goes on at
one. -/
theorem Tidy.apart {n : Network} (ht : n.Tidy) : n.Apart where
  follow_unpassed := ht.follow_unpassed
  target_unpassed a s hs e he hcall _ hpassed := by
    cases e with
    | call target rule follow level =>
        exact ht.start_unpassed rule target (ht.call_start a s hs _ _ _ _ he) hpassed
    | _ => cases hcall

/-- From the start of a rule on a cycle, the pushdown system comes below as many open calls as one
likes. -/
theorem exists_deep_ofRules (max : TokenType)
    (hreferences : ∀ rule ∈ rules, ∀ e ∈ rule.body.exprs, ∀ c, .rule c ∈ e.nodes →
      c < rules.length)
    (hchoices : ∀ rule ∈ rules, ∀ e ∈ rule.body.exprs, .alt [] ∉ e.nodes) {r start : Nat}
    (hcycle : TransGen (CallsFirst rules) r r) (hstart : (ofRules rules max).start? r = some start)
    (depth : Nat) : ∃ d, ReflTransGen (Configuration.Step (ofRules rules max) [])
      ⟨start, [⟨r, none, 0⟩], 0⟩ d ∧ depth < d.calls.length := by
  -- Without labels the rules have the same cycles, and the network makes the same steps.
  have halike := alikeInFront_relabel (fun _ => .mute) rules
  have hcycle' : TransGen (CallsFirst (rules.map (Rule.relabel fun _ => .mute))) r r :=
    TransGen.mono (fun a b hcall => (halike.callsFirst_iff a b).mpr hcall) _ _ hcycle
  have hchoices' : ∀ rule' ∈ rules.map (Rule.relabel fun _ => .mute), ∀ e ∈ rule'.body.exprs,
      .alt [] ∉ e.nodes := by
    intro rule' hrule'
    obtain ⟨rule, hrule, rfl⟩ := List.mem_map.mp hrule'
    exact Body.not_mem_nodes_map (hchoices rule hrule)
  obtain ⟨d, -, hsteps, hdepth⟩ := (realizes_mute max hreferences).exists_deep hchoices' hcycle'
    ⟨start, none, [], hstart, rfl⟩ depth
  exact ⟨d, ReflTransGen.mono (fun _ _ hstep => hstep.of_relabel) _ _ hsteps, hdepth⟩

end Network

/-! ### Traversals -/

/-- The setting of a traversal of the network in front of nothing but the caret. No rule is reported
as a whole, and there is no table of first tokens. -/
structure Setting.Uncached (s : Setting) (n : Network) : Prop where
  network_eq : s.network = n
  stream_eq : s.stream = .caretOnly
  reported_eq : s.options.reported = []
  firstTokens_eq : s.options.firstTokens = none

/-- A rule below which there is no end of open calls cannot be exhausted. -/
theorem Setting.Uncached.not_exhaustible {s : Setting} {n : Network} (hs : s.Uncached n)
    (hn : n.Apart) {r start : Nat}
    (hdeep : ∀ depth, ∃ d, ReflTransGen (Configuration.Step n []) ⟨start, [⟨r, none, 0⟩], 0⟩ d ∧
      depth < d.calls.length) : ¬ (Position.first r start).Exhaustible s := by
  intro h
  obtain ⟨rfl, hstream, hreported, htable⟩ := hs
  -- Without recovery rules the setting has no options at all.
  have hunguards : ({ s with options := .none } : Setting).Unguards s :=
    ⟨rfl, rfl, hreported.symm, htable.symm, rfl, fun _ _ => id⟩
  obtain ⟨depth, hdepth⟩ := (h.unguarded hunguards).exists_depth hn rfl (w := []) hstream
    (.of_visited_eq_nil rfl (by simp [Position.first]))
  obtain ⟨d, hsteps, hdeeper⟩ := hdeep depth
  have hle := hdepth d hsteps
  omega

section Unfinished

variable {s : Setting}

/-- Without options an edge fails only if its label does. -/
theorem exists_follow (hs : s.options = .none) (p : Position) (leaving : Bool) (e : Edge)
    (hlabel : ∀ t l, e = .read t l → l.Proper s.network.alphabet) :
    ∃ effects, s.follow p leaving e = .ok effects := by
  rw [Setting.follow.eq_def]
  split
  · exact ⟨_, rfl⟩
  · cases e with
    | call t rule f level =>
        simp only
        split
        · exact ⟨_, rfl⟩
        · exact ⟨_, call_of_options_none hs t rule f level⟩
    | read t l => exact read_ok (hlabel t l rfl)
    | _ => exact ⟨_, rfl⟩

/-- If no edge fails, following all of them does not. -/
theorem exists_followAll {p : Position} {leaving : Bool} {edges : List Edge}
    (h : ∀ e ∈ edges, ∃ effects, s.follow p leaving e = .ok effects) :
    ∃ effects, s.followAll p leaving edges = .ok effects := by
  obtain ⟨effects, heffects, -⟩ := followAll_ok (P := fun _ => True) fun e he =>
    (h e he).imp fun _ hok => ⟨hok, fun _ _ => trivial⟩
  exact ⟨effects, heffects⟩

/-- Without options an exploration fails at labels only. -/
theorem exists_explore {P : RuleIndex → Edge → Prop} (ht : s.network.Tidy)
    (howned : s.network.Owned P) (hP : ∀ r t l, P r (.read t l) → l.Proper s.network.alphabet)
    (hs : s.options = .none) (p : Position) : ∃ effects, s.explore p = .ok effects := by
  cases hstate : s.network.state? p.state with
  | none => exact ⟨[], by simp only [Setting.explore, hstate]⟩
  | some state =>
      by_cases hkind : state.kind = .ruleStop
      · -- The edges of a stop state read nothing.
        have hedges : ∀ e ∈ state.edges, ∀ t l, e ≠ .read t l := by
          rintro e he t l rfl
          obtain ⟨t', heq, -⟩ := ht.stop_edges p.state state hstate hkind _ he
          cases heq
        simp only [Setting.explore, hstate, if_pos hkind]
        split
        · refine exists_followAll fun e he => exists_follow hs _ true e fun t l heq => ?_
          exact absurd heq (hedges e (List.mem_of_mem_filter he) t l)
        · exact ⟨_, rfl⟩
      · rw [explore_inside hstate hkind]
        refine exists_followAll fun e he => exists_follow hs p false e fun t l heq => ?_
        subst heq
        exact hP state.rule t l (howned.edges p.state state hstate hkind _ he).2

namespace Machine

/-- Without recovery rules a step fails only if an exploration does. -/
theorem exists_step (hexplore : ∀ p, ∃ effects, s.explore p = .ok effects)
    (hrecovery : s.options.recovery = []) (m : Machine) : ∃ m', step s m = .ok m' := by
  obtain ⟨pending, found, reachedEnd, stats, tried⟩ := m
  cases pending with
  | nil => exact ⟨_, rfl⟩
  | cons t rest =>
      cases t with
      | explore p =>
          obtain ⟨effects, heffects⟩ := hexplore p
          simp only [step, heffects]
          exact ⟨_, rfl⟩
      | watch p g =>
          -- There is no rule to recover by, so a watch is dropped or finds nothing to do.
          simp only [step, recover, hrecovery, List.getElem?_nil]
          split
          · exact ⟨_, rfl⟩
          · exact ⟨_, rfl⟩

/-- A machine that never fails and always has something left to do uses up every number of steps. -/
theorem run_eq_unfinished (hstep : ∀ m, ∃ m', step s m = .ok m') {m : Machine}
    (hmore : ∀ m', Reaches s m m' → m'.pending ≠ []) (limit : Nat) :
    run s limit m = .error .unfinished := by
  induction limit generalizing m with
  | zero =>
      have hm := hmore m .refl
      rw [run]
      simp [hm]
  | succ limit ih =>
      have hm := hmore m .refl
      obtain ⟨next, hnext⟩ := hstep m
      rw [run_succ hm hnext]
      exact ih fun m' hm' => hmore m' (.head ⟨hm, hnext⟩ hm')

end Machine

end Unfinished

/-- In a network of rules whose labels stand for symbols every exploration succeeds. -/
theorem exists_explore_ofRules {rules : List (Rule Label RuleIndex)} {max : TokenType}
    (hfits : ∀ rule ∈ rules,
      rule.body.Fits (Label.Proper ⟨firstTokenType, max⟩) (· < rules.length))
    {s : Setting} (hn : s.network = .ofRules rules max) (hs : s.options = .none) (p : Position) :
    ∃ effects, s.explore p = .ok effects := by
  have hrealizes := Network.ofRules_realizes hfits
  have howned : (Network.ofRules rules max).Owned fun _ =>
      Edge.Labelled (Label.Proper ⟨firstTokenType, max⟩) := Network.ofRules_labelled hfits
  rw [← hn] at hrealizes howned
  refine exists_explore hrealizes.tidy howned (fun r t l hl => ?_) hs p
  rw [hrealizes.alphabet_eq]
  exact hl

/-- From a rule on a cycle no traversal in front of nothing but the caret runs out of work. -/
theorem Machine.Reaches.pending_ne_nil_of_transGen {rules : List (Rule Label RuleIndex)}
    {max : TokenType} (hreferences : ∀ rule ∈ rules, ∀ e ∈ rule.body.exprs, ∀ c,
      .rule c ∈ e.nodes → c < rules.length)
    (hchoices : ∀ rule ∈ rules, ∀ e ∈ rule.body.exprs, .alt [] ∉ e.nodes) {r start : Nat}
    (hcycle : TransGen (CallsFirst rules) r r)
    (hstart : (Network.ofRules rules max).start? r = some start) {s : Setting}
    (hs : s.Uncached (.ofRules rules max)) {m : Machine} (hm : Reaches s (.start r start) m) :
    m.pending ≠ [] := by
  -- Labels do not matter to the edges of calls and to what is remembered.
  have hapart : (Network.ofRules rules max).Apart :=
    (Network.realizes_mute max hreferences).tidy.apart.of_relabel
  have hendless := hs.not_exhaustible hapart
    (Network.exists_deep_ofRules max hreferences hchoices hcycle hstart)
  exact hm.pending_ne_nil ⟨_, List.mem_cons_self, hendless⟩

/-- From any rule on a cycle of calls that can happen before the first token, a traversal in front
of nothing but the caret always has something left to do. If labels stand for symbols, so that no
step fails, it uses up every number of steps. -/
theorem left_recursion_never_ends {rules : List (Rule Label RuleIndex)} (max : TokenType)
    (hreferences : ∀ rule ∈ rules, ∀ e ∈ rule.body.exprs, ∀ c, .rule c ∈ e.nodes →
      c < rules.length)
    (hchoices : ∀ rule ∈ rules, ∀ e ∈ rule.body.exprs, .alt [] ∉ e.nodes)
    {cycle : List RuleIndex} (hcycle : cycle ∈ leftCycles rules (nullableRules rules))
    {r : RuleIndex} (hr : r ∈ cycle) :
    ∃ start, (Network.ofRules rules max).start? r = some start ∧
      (∀ s : Setting, s.Uncached (.ofRules rules max) → ∀ m,
        Machine.Reaches s (.start r start) m → m.pending ≠ []) ∧
      ((∀ rule ∈ rules, ∀ e ∈ rule.body.exprs, ∀ l, .terminal l ∈ e.nodes →
          l.Proper ⟨firstTokenType, max⟩) →
        ∀ limit, Traversal.atStart (.ofRules rules max) limit r = .error .unfinished) := by
  have hround : TransGen (CallsFirst rules) r r :=
    (isElementaryCycle_of_mem_leftCycles hcycle).transGen hr hr
  obtain ⟨start, hstart⟩ := Network.exists_start_of_transGen max hreferences hround
  have hmore : ∀ s : Setting, s.Uncached (.ofRules rules max) → ∀ m,
      Machine.Reaches s (.start r start) m → m.pending ≠ [] := fun s hs m hm =>
    hm.pending_ne_nil_of_transGen hreferences hchoices hround hstart hs
  refine ⟨start, hstart, hmore, fun hlabels limit => ?_⟩
  -- No step fails, so only the number of steps can end the run.
  have hfits : ∀ rule ∈ rules,
      rule.body.Fits (Label.Proper ⟨firstTokenType, max⟩) (· < rules.length) :=
    fun rule hrule => Body.fits_of_exprs fun e he =>
      Expr.fits_of_nodes (hlabels rule hrule e he) (hreferences rule hrule e he)
  have hrun := Machine.run_eq_unfinished
    (Machine.exists_step (exists_explore_ofRules hfits rfl rfl) rfl)
    (hmore ⟨.ofRules rules max, .caretOnly, .none, fun _ => .ok false⟩ ⟨rfl, rfl, rfl, rfl⟩) limit
  rw [Traversal.atStart, Traversal.run, hstart]
  simp only [hrun]
  rfl

/-- Rules where a term can begin with a sum, behind a sign that can be left out, and a sum can begin
with a term, behind another sign. -/
def openSums : List (Rule Label RuleIndex) := [
  ⟨"sign", .plain (.optional (.terminal (.symbol 1)) true)⟩,
  ⟨"term", .precedence [.terminal (.symbol 2), .rule 0] [.terminal (.symbol 3), .rule 2]⟩,
  ⟨"sum", .plain (.seq [.rule 0, .rule 1, .terminal (.symbol 3)])⟩]

/-- None of these rules repeats what is nullable, so the cycle is all that is wrong with them. The
traversal of a term never ends. -/
theorem open_sums_never_end :
    (∀ rule ∈ openSums, rule.body.repeatsNullable (marked (nullableRules openSums)) = false) ∧
      leftCycles openSums (nullableRules openSums) = [[1, 2, 1]] ∧
      (∃ start, (Network.ofRules openSums 3).start? 1 = some start ∧
        ∀ s : Setting, s.Uncached (.ofRules openSums 3) → ∀ m,
          Machine.Reaches s (.start 1 start) m → m.pending ≠ []) ∧
      ∀ limit, Traversal.atStart (.ofRules openSums 3) limit 1 = .error .unfinished := by
  have hloops : (openSums.all fun rule =>
      !rule.body.repeatsNullable (marked (nullableRules openSums))) = true := by cbv
  have hcycles : leftCycles openSums (nullableRules openSums) = [[1, 2, 1]] := by cbv
  have hreferences : ∀ rule ∈ openSums, ∀ e ∈ rule.body.exprs, ∀ c, .rule c ∈ e.nodes →
      c < openSums.length := by
    simp [openSums, Body.exprs, Expr.nodes, Expr.nodesOfList]
  have hchoices : ∀ rule ∈ openSums, ∀ e ∈ rule.body.exprs, .alt [] ∉ e.nodes := by
    simp [openSums, Body.exprs, Expr.nodes, Expr.nodesOfList]
  obtain ⟨start, hstart, hmore, hunfinished⟩ := left_recursion_never_ends 3 hreferences hchoices
    (hcycles ▸ List.mem_cons_self) (List.mem_cons_self : 1 ∈ [1, 2, 1])
  refine ⟨by simpa using hloops, hcycles, ⟨start, hstart, hmore⟩, hunfinished ?_⟩
  have hlabel : ∀ t : Int, t < int32Max → (Label.symbol t).Proper ⟨firstTokenType, 3⟩ := by
    intro t ht
    obtain ⟨set, hset, -⟩ := IntervalSet.ofValue?_spec ht
    exact Label.proper_of_symbols trivial hset
  suffices (Label.symbol 1).Proper ⟨firstTokenType, 3⟩ ∧
      (Label.symbol 2).Proper ⟨firstTokenType, 3⟩ ∧
      (Label.symbol 3).Proper ⟨firstTokenType, 3⟩ by
    simpa [openSums, Body.exprs, Expr.nodes, Expr.nodesOfList] using this
  exact ⟨hlabel 1 (by decide), hlabel 2 (by decide), hlabel 3 (by decide)⟩

end Caret
