import Caret.Proofs.Acceptance
import Caret.Proofs.Runs

/-!
# `Caret.Proofs.Reentry`: going on behind a rule that recovery entered

A recovery rule with a rule as its target enters that rule on behalf of the caller of the rule that
failed. The frame that it pushes names the follow state of the failed call, as an ordinary call
would. But a stop state is left along its own edges, and an edge to the follow state is there only
if the rule is the one that the call is for.

So what comes behind the failed call is explored if recovery goes back into the rule that failed,
and otherwise the way ends at the stop state (`reentry_goes_on_iff_same_rule`). In a grammar for
`block "end" | fix`, a jump from `block` to `fix` reads its text and then suggests nothing
(`jump_does_not_go_on`).

The invariant behind this is `Task.Sound`: guards stand at follow states of calls of their rule, and
only states within a rule count as passed, so that a follow state never does.
-/

set_option autoImplicit false

namespace Caret

/-! ### Guards stand behind calls -/

/-- Callers of the rule go on at this state. -/
def Network.IsFollowOf (n : Network) (rule : RuleIndex) (f : Nat) : Prop :=
  ∃ a s, n.state? a = some s ∧ ∃ target level, Edge.call target rule f level ∈ s.edges

/-- A state where callers of some rule go on is one where callers go on. -/
theorem Network.IsFollowOf.isFollow {n : Network} {rule : RuleIndex} {f : Nat}
    (h : n.IsFollowOf rule f) : n.IsFollow f := by
  obtain ⟨a, s, hs, target, level, hmem⟩ := h
  exact ⟨a, s, hs, target, rule, level, hmem⟩

/-- States count as passed only if edges within a rule lead to them, and a guard stands behind a
call of the rule that its recovery rule is for. -/
def Task.Sound (s : Setting) : Task → Prop
  | .explore p => ∀ a ∈ p.visited, s.network.IsPassed a
  | .watch p g => ∃ r, s.options.recovery[g.recovery]? = some r ∧
      s.network.IsFollowOf r.inRule p.state

section

variable {s : Setting} {p q : Position}

/-- The position that a recovery rule goes on from: at its token or behind it, with no state passed,
and for a jump at the start of the target rule, in a frame that returns to where the guard
stands. -/
theorem Setting.resume_eq_some {g : Guard} {r : RecoveryRule}
    (h : s.resume p g r = .ok (some q)) :
    q.visited = [] ∧ (∃ found, s.stream.findAfter? r.token p.index = .ok (some found) ∧
      q.index = if r.skipOne then found + 1 else found) ∧
      ∀ rule, r.target = .goToRule rule → s.network.start? rule = some q.state ∧
        q.calls = ⟨rule, some p.state, g.level⟩ :: p.calls := by
  cases hfind : s.stream.findAfter? r.token p.index with
  | error cause =>
      simp only [resume, hfind] at h
      cases h
  | ok found? =>
      cases found? with
      | none =>
          simp only [resume, hfind] at h
          cases h
      | some found =>
          simp only [resume, hfind, bind, Except.bind, pure, Except.pure] at h
          -- Both targets forget the passed states, and only a jump opens a call.
          cases htarget : r.target with
          | finishRule =>
              simp only [htarget] at h
              split at h
              · cases h
              · cases h
                exact ⟨rfl, ⟨found, rfl, rfl⟩, fun rule hrule => by cases hrule⟩
          | goToRule rule =>
              simp only [htarget] at h
              split at h
              · cases h
              · rename_i start hstart
                split at h
                · cases h
                · cases h
                  refine ⟨rfl, ⟨found, rfl, rfl⟩, fun rule' hrule => ?_⟩
                  cases hrule
                  exact ⟨hstart, rfl⟩

/-- A sound task leaves sound tasks. -/
theorem Task.Sound.of_spawns {t t' : Task} (h : t.Sound s) (hspawns : t.Spawns s t') :
    t'.Sound s := by
  cases hspawns with
  | watch _ hresume =>
      intro a ha
      rw [(Setting.resume_eq_some hresume).1] at ha
      cases ha
  | @explore p effects x found t' hexplore hx htask =>
      -- Entering, leaving and reading forget the states that were passed.
      have hforgets : ∀ q : Position, q.visited = [] → (Task.explore q).Sound s := by
        intro q hq a ha
        rw [hq] at ha
        cases ha
      rcases exists_departs_of_mem hexplore hx with
        ⟨rfl, -⟩ | ⟨e, q, leaving, here, hdeparts, hhere, hx⟩
      · cases htask
      · rcases effect_of_follow hhere hx with ⟨hpasses, -, -, rfl⟩ |
            ⟨t, rule, f, level, rfl, -, hcall⟩ | ⟨t, label, rfl, hread⟩
        · cases htask
          cases hdeparts with
          | inside hstate hkind he =>
              intro a ha
              rcases List.mem_cons.mp ha with rfl | ha
              · exact ⟨p.state, _, hstate, hkind, e, he, hpasses, rfl⟩
              · exact h a ha
          | leaving => exact hforgets _ rfl
        · rcases effect_of_call hcall hx with ⟨c, rfl⟩ | rfl | ⟨rfl, -⟩ | ⟨k, r, rfl, hr, hrule⟩
          · cases htask
          · cases htask
            exact hforgets _ rfl
          · cases htask
            exact hforgets _ rfl
          · cases htask
            obtain ⟨state, hstate, he⟩ := hdeparts.mem_edges
            -- The guard stands at the follow state of the edge that set it.
            exact ⟨r, hr, p.state, state, hstate, t, level, hrule ▸ he⟩
        · rcases effect_of_read hread hx with ⟨c, rfl⟩ | ⟨t, -, rfl⟩
          · cases htask
          · cases htask
            exact hforgets _ rfl

end

namespace Machine

variable {s : Setting} {m m' : Machine}

/-- All tasks of a run are sound. -/
theorem Reaches.sound {r : RuleIndex} {start : StateId} (h : Reaches s (.start r start) m) :
    ∀ t ∈ m.pending, t.Sound s := by
  refine h.forall_pending (fun t t' => Task.Sound.of_spawns) ?_
  intro t ht
  rw [List.mem_singleton.mp ht]
  intro a ha
  cases ha

/-- A machine is the other one after so many steps. -/
def RunsTo (s : Setting) (k : Nat) (m m' : Machine) : Prop :=
  Nat.repeat (· >>= step s) k (.ok m) = .ok m'

/-- Running for a number of steps comes to a machine that is reached. A run may stand still at its
end, where no task is left. -/
theorem RunsTo.reaches {k : Nat} (h : RunsTo s k m m') : Reaches s m m' := by
  induction k generalizing m' with
  | zero =>
      cases h
      exact .refl
  | succ k ih =>
      rw [RunsTo, Nat.repeat] at h
      cases hbefore : Nat.repeat (· >>= step s) k (.ok m) with
      | error halt =>
          rw [hbefore] at h
          cases h
      | ok before =>
          rw [hbefore] at h
          have hstep : step s before = .ok m' := h
          by_cases hdone : before.pending = []
          · -- A machine with nothing left to do stays as it is.
            obtain ⟨pending, found, reachedEnd, stats, tried⟩ := before
            cases hdone
            cases hstep
            exact ih hbefore
          · exact (ih hbefore).tail ⟨hdone, hstep⟩

/-! ### Recovery rules that are used -/

/-- The next task is a guard, and looking at it uses its recovery rule: the machine goes on with the
position that the rule leads to. -/
structure Fires (s : Setting) (m : Machine) (p : Position) (g : Guard) (r : RecoveryRule)
    (entry : Position) (m' : Machine) : Prop where
  guarded : m.pending.head? = some (.watch p g)
  rule_eq : s.options.recovery[g.recovery]? = some r
  step_eq : step s m = .ok m'
  resumed : m'.pending = .explore entry :: m.pending.tail

/-- Using a recovery rule is a step. -/
theorem Fires.next {p entry : Position} {g : Guard} {r : RecoveryRule}
    (h : m.Fires s p g r entry m') : Next s m m' := by
  refine ⟨fun hnil => ?_, h.step_eq⟩
  have hguarded := h.guarded
  rw [hnil] at hguarded
  cases hguarded

/-- A recovery rule that is used has a position to go on from. It was not tried at this place
before, and its use is noted and counted. -/
theorem Fires.spec {p entry : Position} {g : Guard} {r : RecoveryRule}
    (h : m.Fires s p g r entry m') : s.resume p g r = .ok (some entry) ∧
      (g.recovery, p.index) ∉ m.tried ∧ m'.tried = (g.recovery, p.index) :: m.tried ∧
      m'.stats = m.stats.record r := by
  have hguarded := h.guarded
  have hresumed := h.resumed
  cases h.next.advance with
  | explore hpending _ =>
      rw [hpending] at hguarded
      cases hguarded
  | drop hpending _ =>
      -- The guard is dropped and nothing takes its place.
      rw [hpending] at hresumed
      exact absurd hresumed.symm (List.cons_ne_self _ _)
  | jump hpending hr _ _ hnew hresume =>
      rw [hpending] at hguarded hresumed
      cases hguarded
      cases hresumed
      cases h.rule_eq.symm.trans hr
      exact ⟨hresume, hnew, rfl, rfl⟩

/-- The position is the one that the recovery rule goes on from. -/
theorem Fires.resume_eq {p entry : Position} {g : Guard} {r : RecoveryRule}
    (h : m.Fires s p g r entry m') : s.resume p g r = .ok (some entry) := h.spec.1

/-- At the stop state of a rule, in a frame that returns behind a call of some rule: the way goes on
there if the two rules are the same, and ends otherwise. -/
theorem step_returning (ht : s.network.Tidy) {q : Position} {rest : List Task}
    (hpending : m.pending = .explore q :: rest) (hsound : (Task.explore q).Sound s)
    {callee called : RuleIndex} (hstop : s.network.stop? callee = some q.state) {f : Nat}
    (hfollow : s.network.IsFollowOf called f) {level : Int} {callers : List Call}
    (hcalls : q.calls = ⟨callee, some f, level⟩ :: callers) :
    step s m = .ok (m.withPending (if callee = called
      then .explore { q with state := f, visited := [], calls := callers } :: rest
      else rest)) := by
  obtain ⟨last, hlast, hkind⟩ := ht.stop_kind callee q.state hstop
  -- The guard against loops tests return targets as well, but follow states are never passed.
  have hnew : f ∉ q.visited := fun hmem =>
    ht.follow_unpassed f hfollow.isFollow (hsound f hmem)
  have hlt := ht.follow_lt f hfollow.isFollow
  obtain ⟨a, state, hstate, target, level', hmem⟩ := hfollow
  have hreturns := ht.call_returns a state hstate target called f level' hmem callee q.state last
    hstop hlast
  have hexplore := explore_return hlast hkind hcalls hnew hlt (by
    intro e he
    rw [hreturns] at he
    split at he
    · exact List.mem_singleton.mp he
    · cases he)
  by_cases hsame : callee = called
  · rw [hreturns, if_pos hsame, List.map_singleton] at hexplore
    rw [if_pos hsame, step_explore hpending hexplore (by simp [Effect.isGuard]), outputs_visit,
      outputs_nil, after_nil, visits_visit, visits_nil]
    rfl
  · rw [hreturns, if_neg hsame, List.map_nil] at hexplore
    rw [if_neg hsame, step_explore hpending hexplore (by simp), outputs_nil, after_nil, visits_nil]
    rfl

end Machine

/-! ### Re-entry in accepted grammars -/

/-- A block in front of an end, or a fix: `block "end" | fix`. -/
def blockGrammar : Source where
  rules := [
    ⟨"start", .plain (.alt
      [.seq [.rule "block", .terminal (.one (.literal "end"))], .rule "fix"])⟩,
    ⟨"block", .plain (.seq [.terminal (.one (.literal "x")), .terminal (.one (.literal "y"))])⟩,
    ⟨"fix", .plain (.terminal (.one (.literal "z")))⟩]
  lexerRules := []

/-- The network of `blockGrammar`. -/
def blockNetwork : Network :=
  match blockGrammar.build with
  | .ok g => g.recognizer.network
  | .error _ => .empty 0

/-- The grammar is accepted, and its network is `blockNetwork`. -/
theorem exists_build_blockGrammar :
    ∃ g, blockGrammar.build = .ok g ∧ blockNetwork = g.recognizer.network := by
  have hok : blockGrammar.build.isOk = true := by cbv
  cases hbuild : blockGrammar.build with
  | ok g => exact ⟨g, rfl, by rw [blockNetwork, hbuild]⟩
  | error e =>
      rw [hbuild] at hok
      cases hok

/-- If a block fails, go back into it at the next `x`. -/
def backToBlock : RecoveryRule := ⟨1, 2, .goToRule 1, false, false⟩

/-- If a block fails, go on in a fix at the next `z`. -/
def jumpToFix : RecoveryRule := ⟨1, 4, .goToRule 2, false, false⟩

/-- The setting of a traversal of the block over some tokens, with one recovery rule. -/
def blockSetting (r : RecoveryRule) (tokens : List TokenType) : Setting :=
  .ofOptions blockNetwork ⟨tokens.toArray⟩ ⟨[], [r], none⟩ 100

/-- The position of the guard of the block, in front of the end. -/
def behindBlock : Position := ⟨9, 0, [], [⟨0, none, 0⟩], 0⟩

/-- A position in a rule that was entered in place of the block. -/
def inPlaceOfBlock (rule : RuleIndex) (state : StateId) (index : Nat) (visited : List StateId) :
    Position :=
  ⟨state, index, visited, [⟨rule, some 9, 0⟩, ⟨0, none, 0⟩], 1⟩

/-- What is left when the block is done with: the other alternative. -/
def otherThanBlock : List Task := [.explore ⟨11, 0, [11, 6], [⟨0, none, 0⟩], 0⟩]

/-- The block was explored, and nothing came of it. -/
def failedBlock : Machine :=
  ⟨.watch behindBlock ⟨0, 0, 0⟩ :: otherThanBlock, #[], false, .empty, []⟩

/-- The recovery rule of the block was used, and has come to the position. -/
def recoveredBlock (r : RecoveryRule) (q : Position) : Machine :=
  ⟨.explore q :: otherThanBlock, #[], false, RecoveryStats.empty.record r, [(0, 0)]⟩

/-- A recovery rule that is used and has a rule as its target enters that rule, at its token, on
behalf of the caller that stands behind a call of the rule that failed. Where the entered rule comes
to its stop state, the machine goes on behind the failed call with what is read by then, if the
entered rule is the rule that failed. If it is another rule, the way ends there. -/
theorem reentry_goes_on_iff_same_rule {source : Source} {grammar : Grammar}
    (h : source.build = .ok grammar) (hsize : source.numbering.size < 2 ^ 31 - 2)
    {s : Setting} (hs : s.network = grammar.recognizer.network) {first : RuleIndex}
    {start : StateId} {m m' : Machine} (hm : Machine.Reaches s (.start first start) m)
    {p entry : Position} {g : Guard} {r : RecoveryRule} (hfires : m.Fires s p g r entry m')
    {callee : RuleIndex} (htarget : r.target = .goToRule callee) :
    s.network.IsFollowOf r.inRule p.state ∧ s.network.start? callee = some entry.state ∧
      entry.calls = ⟨callee, some p.state, g.level⟩ :: p.calls ∧
      (∃ found, s.stream.findAfter? r.token p.index = .ok (some found) ∧
        entry.index = if r.skipOne then found + 1 else found) ∧
      ∀ m₁ q rest, Machine.Reaches s m' m₁ → m₁.pending = .explore q :: rest →
        s.network.stop? callee = some q.state → q.calls = entry.calls →
        Machine.step s m₁ = .ok (m₁.withPending (if callee = r.inRule
          then .explore { q with state := p.state, visited := [], calls := p.calls } :: rest
          else rest)) := by
  obtain ⟨-, hindex, hentry⟩ := Setting.resume_eq_some hfires.resume_eq
  obtain ⟨hstart, hcalls⟩ := hentry callee htarget
  have hguard : (Task.watch p g).Sound s :=
    hm.sound _ (List.mem_of_mem_head? hfires.guarded)
  -- The guard was set for a call of the rule that its recovery rule names.
  obtain ⟨r', hr', hfollow⟩ := hguard
  cases hfires.rule_eq.symm.trans hr'
  refine ⟨hfollow, hstart, hcalls, hindex, ?_⟩
  intro m₁ q rest hm₁ hpending hstop hq
  have ht : s.network.Tidy := hs ▸ (Source.realizes_of_build h hsize).tidy
  have hreaches : Machine.Reaches s (.start first start) m₁ :=
    hm.trans (.head hfires.next hm₁)
  exact Machine.step_returning ht hpending (hreaches.sound _ (hpending ▸ List.mem_cons_self)) hstop
    hfollow (hq.trans hcalls)

/-- In `x x y` the block fails at its second token. Recovery enters it again there, and behind it
the machine goes on in front of the end. -/
theorem way_back_goes_on : ∃ grammar, blockGrammar.build = .ok grammar ∧
    blockGrammar.numbering.size < 2 ^ 31 - 2 ∧
    (blockSetting backToBlock [2, 2, 3]).network = grammar.recognizer.network ∧
    Machine.Reaches (blockSetting backToBlock [2, 2, 3]) (.start 0 0) failedBlock ∧
    failedBlock.Fires (blockSetting backToBlock [2, 2, 3]) behindBlock ⟨0, 0, 0⟩ backToBlock
      (inPlaceOfBlock 1 2 1 []) (recoveredBlock backToBlock (inPlaceOfBlock 1 2 1 [])) ∧
    Machine.Reaches (blockSetting backToBlock [2, 2, 3])
      (recoveredBlock backToBlock (inPlaceOfBlock 1 2 1 []))
      (recoveredBlock backToBlock (inPlaceOfBlock 1 3 3 [3])) ∧
    blockNetwork.stop? 1 = some 3 ∧
    Machine.step (blockSetting backToBlock [2, 2, 3])
        (recoveredBlock backToBlock (inPlaceOfBlock 1 3 3 [3])) =
      .ok (recoveredBlock backToBlock ⟨9, 3, [], [⟨0, none, 0⟩], 1⟩) := by
  obtain ⟨grammar, hbuild, hnetwork⟩ := exists_build_blockGrammar
  have hsize : blockGrammar.numbering.size < 2 ^ 31 - 2 := by decide
  -- One evaluation for all facts about the run, so that the grammar is compiled once.
  obtain ⟨hfailed, hrecovers, hstops, hstop⟩ :
      Machine.RunsTo (blockSetting backToBlock [2, 2, 3]) 5 (.start 0 0) failedBlock ∧
      Machine.step (blockSetting backToBlock [2, 2, 3]) failedBlock =
        .ok (recoveredBlock backToBlock (inPlaceOfBlock 1 2 1 [])) ∧
      Machine.RunsTo (blockSetting backToBlock [2, 2, 3]) 3
        (recoveredBlock backToBlock (inPlaceOfBlock 1 2 1 []))
        (recoveredBlock backToBlock (inPlaceOfBlock 1 3 3 [3])) ∧
      blockNetwork.stop? 1 = some 3 := by
    cbv
  have hfires : failedBlock.Fires (blockSetting backToBlock [2, 2, 3]) behindBlock ⟨0, 0, 0⟩
      backToBlock (inPlaceOfBlock 1 2 1 [])
      (recoveredBlock backToBlock (inPlaceOfBlock 1 2 1 [])) :=
    ⟨rfl, rfl, hrecovers, rfl⟩
  obtain ⟨-, -, -, -, hgoesOn⟩ :=
    reentry_goes_on_iff_same_rule hbuild hsize hnetwork hfailed.reaches hfires rfl
  exact ⟨grammar, hbuild, hsize, hnetwork, hfailed.reaches, hfires, hstops.reaches, hstop,
    hgoesOn _ _ _ hstops.reaches rfl hstop rfl⟩

/-- In `x x z` the block fails at its second token, and recovery enters the fix at `z`. The fix
comes to its stop state in the frame of the caller of the block, but the machine does not go on in
front of the end. So nothing is suggested. -/
theorem jump_does_not_go_on : ∃ grammar, blockGrammar.build = .ok grammar ∧
    (blockSetting jumpToFix [2, 2, 4]).network = grammar.recognizer.network ∧
    Machine.Reaches (blockSetting jumpToFix [2, 2, 4]) (.start 0 0) failedBlock ∧
    failedBlock.Fires (blockSetting jumpToFix [2, 2, 4]) behindBlock ⟨0, 0, 0⟩ jumpToFix
      (inPlaceOfBlock 2 4 2 []) (recoveredBlock jumpToFix (inPlaceOfBlock 2 4 2 [])) ∧
    Machine.Reaches (blockSetting jumpToFix [2, 2, 4])
      (recoveredBlock jumpToFix (inPlaceOfBlock 2 4 2 []))
      (recoveredBlock jumpToFix (inPlaceOfBlock 2 5 3 [5])) ∧
    blockNetwork.stop? 2 = some 5 ∧
    Machine.step (blockSetting jumpToFix [2, 2, 4])
        (recoveredBlock jumpToFix (inPlaceOfBlock 2 5 3 [5])) =
      .ok ((recoveredBlock jumpToFix (inPlaceOfBlock 2 5 3 [5])).withPending otherThanBlock) ∧
    Traversal.run (blockSetting jumpToFix [2, 2, 4]) 100 0 =
      .ok ⟨[], false, RecoveryStats.empty.record jumpToFix⟩ := by
  obtain ⟨grammar, hbuild, hnetwork⟩ := exists_build_blockGrammar
  obtain ⟨hfailed, hrecovers, hstops, hrest⟩ :
      Machine.RunsTo (blockSetting jumpToFix [2, 2, 4]) 5 (.start 0 0) failedBlock ∧
      Machine.step (blockSetting jumpToFix [2, 2, 4]) failedBlock =
        .ok (recoveredBlock jumpToFix (inPlaceOfBlock 2 4 2 [])) ∧
      Machine.RunsTo (blockSetting jumpToFix [2, 2, 4]) 2
        (recoveredBlock jumpToFix (inPlaceOfBlock 2 4 2 []))
        (recoveredBlock jumpToFix (inPlaceOfBlock 2 5 3 [5])) ∧
      blockNetwork.stop? 2 = some 5 ∧
      Machine.step (blockSetting jumpToFix [2, 2, 4])
          (recoveredBlock jumpToFix (inPlaceOfBlock 2 5 3 [5])) =
        .ok ((recoveredBlock jumpToFix (inPlaceOfBlock 2 5 3 [5])).withPending otherThanBlock) ∧
      Traversal.run (blockSetting jumpToFix [2, 2, 4]) 100 0 =
        .ok ⟨[], false, RecoveryStats.empty.record jumpToFix⟩ := by
    cbv
  exact ⟨grammar, hbuild, hnetwork, hfailed.reaches, ⟨rfl, rfl, hrecovers, rfl⟩, hstops.reaches,
    hrest⟩

end Caret
