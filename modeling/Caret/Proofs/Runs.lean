import Caret.Proofs.Exploration

/-!
# `Caret.Proofs.Runs`: the states that a machine goes through

`Machine.Reaches s m m'` says that a machine comes from `m` to `m'` by doing tasks. All that one
task can do is `Machine.Advance`, and what it can leave on the stack is `Task.Spawns`. So a property
of tasks that `Spawns` keeps holds of all tasks in a run (`Machine.Reaches.forall_pending`).

What a task spawns comes from the edges of one state. `Position.Departs` lists the edges that count:
all edges of a state within a rule, and at the stop state of a rule those to the state where the
caller goes on. `follow_of_departs` and `exists_departs_of_mem` say that exploring a position
follows just these edges.

Without recovery rules every task that is spawned is done. So a run that ends has found what the
positions put out that it came to, and nothing else (`Machine.Reaches.explored`,
`Traversal.run_spec`).
-/

set_option autoImplicit false

namespace Caret

/-! ### The edges of a position -/

/-- The edge leads on from the position. At the stop state of a rule the innermost call is closed
before the edge is followed, and the edge must lead to the follow state of the call. -/
inductive Position.Departs (n : Network) (p : Position) : Edge → Position → Bool → Prop where
  | inside {state : State} {e : Edge} : n.state? p.state = some state → state.kind ≠ .ruleStop →
      e ∈ state.edges → Departs n p e p false
  | leaving {state : State} {e : Edge} {rule : RuleIndex} {f : StateId} {level : Int}
      {callers : List Call} : n.state? p.state = some state → state.kind = .ruleStop →
      p.calls = ⟨rule, some f, level⟩ :: callers → e ∈ state.edges → e.target = f →
        Departs n p e { p with calls := callers } true

/-- An edge that leads on is an edge of the state. -/
theorem Position.Departs.mem_edges {n : Network} {p q : Position} {e : Edge} {leaving : Bool}
    (h : p.Departs n e q leaving) : ∃ state, n.state? p.state = some state ∧ e ∈ state.edges := by
  cases h with
  | inside hstate _ he => exact ⟨_, hstate, he⟩
  | leaving hstate _ _ he _ => exact ⟨_, hstate, he⟩

/-- The first rule is complete at the position, and all tokens are read. -/
structure Position.Finished (s : Setting) (p : Position) : Prop where
  stops : ∃ state, s.network.state? p.state = some state ∧ state.kind = .ruleStop
  uncalled : ∀ c callers, p.calls = c :: callers → c.follow = none
  read : p.index = s.stream.caret

section

variable {s : Setting} {p : Position} {effects : List Effect}

/-- An edge within the rule leads to its target, which was not passed before. -/
theorem effect_of_pass {leaving : Bool} {target : StateId} {x : Effect}
    (hx : x ∈ Setting.pass p leaving target) : target ∉ p.visited ∧
      x = .visit (if leaving then p.enter target else p.pass target) := by
  rw [Setting.pass] at hx
  split at hx
  · cases hx
  · rename_i hnew
    exact ⟨hnew, List.mem_singleton.mp hx⟩

/-- What an edge can lead to: its target if it stays within the rule and its gate is open, what the
call comes to, or what the reading comes to. -/
theorem effect_of_follow {leaving : Bool} {e : Edge} (h : s.follow p leaving e = .ok effects)
    {x : Effect} (hx : x ∈ effects) :
    (e.passes = true ∧ (∀ t l, e = .gate t l → p.level ≤ l) ∧ e.target ∉ p.visited ∧
      x = .visit (if leaving then p.enter e.target else p.pass e.target)) ∨
    (∃ t rule f level, e = .call t rule f level ∧ t ∉ p.visited ∧
      s.call p t rule f level = .ok effects) ∨
    ∃ t label, e = .read t label ∧ s.read p (.read t label) = .ok effects := by
  rw [Setting.follow.eq_def] at h
  split at h
  · cases h
    cases hx
  · cases e with
    | epsilon t =>
        rw [← Except.ok.inj h] at hx
        exact Or.inl ⟨rfl, by simp, effect_of_pass hx⟩
    | command t index =>
        rw [← Except.ok.inj h] at hx
        exact Or.inl ⟨rfl, by simp, effect_of_pass hx⟩
    | gate t level =>
        rw [← Except.ok.inj h] at hx
        split at hx
        · cases hx
        · rename_i hlevel
          refine Or.inl ⟨rfl, ?_, effect_of_pass hx⟩
          intro t' l' he
          cases he
          exact Int.not_lt.mp hlevel
    | call t rule f level =>
        simp only at h
        split at h
        · cases h
          cases hx
        · rename_i hnew
          exact Or.inr (Or.inl ⟨t, rule, f, level, rfl, hnew, h⟩)
    | read t label => exact Or.inr (Or.inr ⟨t, label, rfl, h⟩)

/-- Edges can be followed if each of them can, and then they have the effects of each of them. -/
theorem followAll_spec {leaving : Bool} {edges : List Edge}
    (h : s.followAll p leaving edges = .ok effects) :
    (∀ e ∈ edges, ∃ here, s.follow p leaving e = .ok here ∧ ∀ x ∈ here, x ∈ effects) ∧
      ∀ x ∈ effects, ∃ e ∈ edges, ∃ here, s.follow p leaving e = .ok here ∧ x ∈ here := by
  induction edges generalizing effects with
  | nil =>
      cases h
      exact ⟨by simp, by simp⟩
  | cons e edges ih =>
      obtain ⟨later, here, hlater, hhere, rfl⟩ := exists_of_followAll_cons h
      obtain ⟨hall, hback⟩ := ih hlater
      constructor
      · intro e' he'
        rcases List.mem_cons.mp he' with rfl | he'
        · exact ⟨here, hhere, fun x hx => List.mem_append_right _ hx⟩
        · obtain ⟨here', hhere', hsub⟩ := hall e' he'
          exact ⟨here', hhere', fun x hx => List.mem_append_left _ (hsub x hx)⟩
      · intro x hx
        rcases List.mem_append.mp hx with hx | hx
        · obtain ⟨e', he', hrest⟩ := hback x hx
          exact ⟨e', List.mem_cons_of_mem _ he', hrest⟩
        · exact ⟨e, List.mem_cons_self, here, hhere, hx⟩

/-- Every edge that leads on from a position is followed when the position is explored. -/
theorem follow_of_departs (h : s.explore p = .ok effects) {e : Edge} {q : Position} {leaving : Bool}
    (hdeparts : p.Departs s.network e q leaving) :
    ∃ here, s.follow q leaving e = .ok here ∧ ∀ x ∈ here, x ∈ effects := by
  cases hdeparts with
  | inside hstate hkind he =>
      rw [explore_inside hstate hkind] at h
      exact (followAll_spec h).1 e he
  | leaving hstate hkind hcalls he htarget =>
      simp only [Setting.explore, hstate, if_pos hkind, hcalls] at h
      exact (followAll_spec h).1 e (List.mem_filter.mpr ⟨he, decide_eq_true htarget⟩)

/-- What comes of exploring a position is its end, or it comes of an edge that leads on. -/
theorem exists_departs_of_mem (h : s.explore p = .ok effects) {x : Effect} (hx : x ∈ effects) :
    (x = .finish ∧ p.Finished s) ∨ ∃ e q leaving here, p.Departs s.network e q leaving ∧
      s.follow q leaving e = .ok here ∧ x ∈ here := by
  cases hstate : s.network.state? p.state with
  | none =>
      simp only [Setting.explore, hstate, Except.ok.injEq] at h
      rw [← h] at hx
      cases hx
  | some state =>
      by_cases hkind : state.kind = .ruleStop
      · by_cases htop : ∀ c callers, p.calls = c :: callers → c.follow = none
        · -- Nobody called the rule, so the traversal may be at its end.
          rw [explore_stop hstate hkind htop, Except.ok.injEq] at h
          rw [← h] at hx
          split at hx
          · rename_i hread
            exact Or.inl ⟨List.mem_singleton.mp hx, ⟨state, hstate, hkind⟩, htop, hread⟩
          · cases hx
        · simp only [Classical.not_forall] at htop
          obtain ⟨⟨rule, follow, level⟩, callers, hcalls, hfollow⟩ := htop
          obtain ⟨f, rfl⟩ := Option.ne_none_iff_exists'.mp hfollow
          simp only [Setting.explore, hstate, if_pos hkind, hcalls] at h
          obtain ⟨e, he, here, hhere, hx⟩ := (followAll_spec h).2 x hx
          obtain ⟨he, htarget⟩ := List.mem_filter.mp he
          exact Or.inr ⟨e, _, true, here,
            .leaving hstate hkind hcalls he (of_decide_eq_true htarget), hhere, hx⟩
      · rw [explore_inside hstate hkind] at h
        obtain ⟨e, he, here, hhere, hx⟩ := (followAll_spec h).2 x hx
        exact Or.inr ⟨e, p, false, here, .inside hstate hkind he, hhere, hx⟩

/-- An edge never ends the traversal. -/
theorem finish_not_mem_follow {leaving : Bool} {e : Edge}
    (h : s.follow p leaving e = .ok effects) : .finish ∉ effects := by
  intro hmem
  rcases effect_of_follow h hmem with ⟨-, -, -, hvisit⟩ | ⟨t, rule, f, level, -, -, hcall⟩ |
      ⟨t, label, -, hread⟩
  · cases hvisit
  · rcases effect_of_call hcall hmem with ⟨c, hc⟩ | hvisit | ⟨hvisit, -⟩ | ⟨k, r, hguard, -⟩
    · cases hc
    · cases hvisit
    · cases hvisit
    · cases hguard
  · rcases effect_of_read hread hmem with ⟨c, hc⟩ | ⟨t, -, hvisit⟩
    · cases hc
    · cases hvisit

/-- A position ends the traversal just if it is finished. -/
theorem finish_mem_iff (h : s.explore p = .ok effects) : .finish ∈ effects ↔ p.Finished s := by
  constructor
  · intro hfinish
    rcases exists_departs_of_mem h hfinish with ⟨-, hdone⟩ | ⟨e, q, leaving, here, -, hhere, hmem⟩
    · exact hdone
    · exact absurd hmem (finish_not_mem_follow hhere)
  · rintro ⟨⟨state, hstate, hkind⟩, htop, hread⟩
    rw [explore_stop hstate hkind htop, Except.ok.injEq, if_pos hread] at h
    rw [← h]
    exact List.mem_singleton.mpr rfl

/-- Without recovery rules no guards are set. -/
theorem isGuard_of_explore (hrecovery : s.options.recovery = [])
    (h : s.explore p = .ok effects) : ∀ x ∈ effects, x.isGuard = false := by
  intro x hx
  rcases exists_departs_of_mem h hx with ⟨rfl, -⟩ | ⟨e, q, leaving, here, -, hhere, hx⟩
  · rfl
  · rcases effect_of_follow hhere hx with ⟨-, -, -, rfl⟩ | ⟨t, rule, f, level, -, -, hcall⟩ |
        ⟨t, label, -, hread⟩
    · rfl
    · rcases effect_of_call hcall hx with ⟨c, rfl⟩ | rfl | ⟨rfl, -⟩ | ⟨k, r, -, hr, -⟩
      · rfl
      · rfl
      · rfl
      · rw [hrecovery] at hr
        cases hr
    · rcases effect_of_read hread hx with ⟨c, rfl⟩ | ⟨t, -, rfl⟩
      · rfl
      · rfl

end

/-! ### Tasks -/

/-- The work that an effect leaves, with so many candidates found before. -/
def Effect.task? (found : Nat) : Effect → Option Task
  | .finish => none
  | .report _ => none
  | .visit p => some (.explore p)
  | .guard p recovery level => some (.watch p ⟨recovery, found, level⟩)

/-- Doing the task may leave the other one: what an effect of an exploration leaves, or the position
that a recovery rule goes on from. -/
inductive Task.Spawns (s : Setting) : Task → Task → Prop where
  | explore {p : Position} {effects : List Effect} {x : Effect} {found : Nat} {t : Task} :
      s.explore p = .ok effects → x ∈ effects → x.task? found = some t → Spawns s (.explore p) t
  | watch {p : Position} {g : Guard} {r : RecoveryRule} {q : Position} :
      s.options.recovery[g.recovery]? = some r → s.resume p g r = .ok (some q) →
        Spawns s (.watch p g) (.explore q)

namespace Machine

variable {s : Setting} {m m' : Machine}

/-- An effect puts at most one task on the stack. -/
theorem pending_apply (m : Machine) (e : Effect) :
    (m.apply e).pending = (e.task? m.found.size).toList ++ m.pending := by
  cases e <;> rfl

/-- Effects put the work that they leave on the stack. -/
theorem pending_foldl_apply (effects : List Effect) (m : Machine) :
    ∃ tasks, (effects.foldl apply m).pending = tasks ++ m.pending ∧
      ∀ t ∈ tasks, ∃ e ∈ effects, ∃ found, e.task? found = some t := by
  induction effects generalizing m with
  | nil => exact ⟨[], rfl, by simp⟩
  | cons e effects ih =>
      obtain ⟨tasks, hpending, htasks⟩ := ih (m.apply e)
      refine ⟨tasks ++ (e.task? m.found.size).toList, ?_, ?_⟩
      · rw [List.foldl_cons, hpending, pending_apply, List.append_assoc]
      · intro t ht
        rcases List.mem_append.mp ht with ht | ht
        · obtain ⟨e', he', hfound⟩ := htasks t ht
          exact ⟨e', List.mem_cons_of_mem _ he', hfound⟩
        · exact ⟨e, List.mem_cons_self, m.found.size, Option.mem_toList.mp ht⟩

/-- A machine that has something left to do does its next task. -/
def Next (s : Setting) (m m' : Machine) : Prop := m.pending ≠ [] ∧ step s m = .ok m'

/-- A machine comes to another one by doing tasks. -/
def Reaches (s : Setting) : Machine → Machine → Prop := Relation.ReflTransGen (Next s)

/-- A run that ends is a sequence of steps to a machine that has nothing left to do. -/
theorem reaches_of_run {limit : Nat} (h : run s limit m = .ok m') :
    Reaches s m m' ∧ m'.pending = [] := by
  induction limit generalizing m with
  | zero =>
      rw [run] at h
      split at h
      · rename_i hdone
        cases h
        exact ⟨.refl, List.isEmpty_iff.mp hdone⟩
      · cases h
  | succ limit ih =>
      rw [run] at h
      split at h
      · rename_i hdone
        cases h
        exact ⟨.refl, List.isEmpty_iff.mp hdone⟩
      · rename_i hmore
        cases hstep : step s m with
        | error halt =>
            simp only [hstep] at h
            cases h
        | ok next =>
            simp only [hstep] at h
            obtain ⟨hreaches, hdone⟩ := ih h
            have hnext : Next s m next := ⟨fun hnil => hmore (List.isEmpty_iff.mpr hnil), hstep⟩
            exact ⟨.head hnext hreaches, hdone⟩

/-- What one step can do: explore a position, drop a guard, or use the recovery rule of a guard. The
rule is used where nothing was found since the guard was set, and where it was not tried before. -/
inductive Advance (s : Setting) (m : Machine) : Machine → Prop where
  | explore {p : Position} {rest : List Task} {effects : List Effect} :
      m.pending = .explore p :: rest → s.explore p = .ok effects →
        Advance s m (effects.foldl apply (m.withPending rest))
  | drop {p : Position} {g : Guard} {rest : List Task} {tried : List (Nat × Nat)} :
      m.pending = .watch p g :: rest → m.tried ⊆ tried →
        Advance s m { m.withPending rest with tried }
  | jump {p q : Position} {g : Guard} {rest : List Task} {r : RecoveryRule} :
      m.pending = .watch p g :: rest → s.options.recovery[g.recovery]? = some r →
        m.found.size = g.found → (r.nested = true ∨ p.recoveries = 0) →
          (g.recovery, p.index) ∉ m.tried → s.resume p g r = .ok (some q) →
            Advance s m ⟨.explore q :: rest, m.found, m.reachedEnd, m.stats.record r,
              (g.recovery, p.index) :: m.tried⟩

/-- Every step is one of these. -/
theorem Next.advance (h : Next s m m') : Advance s m m' := by
  obtain ⟨hmore, hstep⟩ := h
  obtain ⟨pending, found, reachedEnd, stats, tried⟩ := m
  cases pending with
  | nil => exact absurd rfl hmore
  | cons t rest =>
      cases t with
      | explore p =>
          cases hexplore : s.explore p with
          | error halt =>
              simp only [step, hexplore] at hstep
              cases hstep
          | ok effects =>
              simp only [step, hexplore, Except.ok.injEq] at hstep
              rw [← hstep]
              exact .explore rfl hexplore
      | watch p g =>
          have hdrop : Advance s ⟨.watch p g :: rest, found, reachedEnd, stats, tried⟩
              ⟨rest, found, reachedEnd, stats, tried⟩ := .drop rfl (List.Subset.refl _)
          -- A guard is dropped for one of several reasons, and only the last branch uses the
          -- recovery rule.
          simp only [step, recover] at hstep
          split at hstep
          · cases hstep
            exact hdrop
          · rename_i hfound
            split at hstep
            · cases hstep
              exact hdrop
            · rename_i r hr
              split at hstep
              · cases hstep
                exact hdrop
              · rename_i hallowed
                simp only [Bool.or_eq_true, Bool.and_eq_true, Bool.not_eq_true', decide_eq_true_eq,
                  not_or, not_and, Nat.not_lt, Nat.le_zero] at hallowed
                split at hstep
                · cases hstep
                · cases hstep
                  exact .drop rfl (List.subset_cons_self _ _)
                · rename_i q hresume
                  cases hstep
                  refine .jump rfl hr (Decidable.not_not.mp hfound) ?_ hallowed.2 hresume
                  cases hnested : r.nested with
                  | true => exact Or.inl rfl
                  | false => exact Or.inr (hallowed.1 hnested)

/-- A step takes a task from the stack and puts tasks there that it spawns. -/
theorem pending_of_next (h : Next s m m') :
    ∃ t rest tasks, m.pending = t :: rest ∧ m'.pending = tasks ++ rest ∧
      ∀ t' ∈ tasks, t.Spawns s t' := by
  cases h.advance with
  | @explore p rest effects hpending hexplore =>
      obtain ⟨tasks, hpending', htasks⟩ := pending_foldl_apply effects (m.withPending rest)
      refine ⟨_, rest, tasks, hpending, hpending', ?_⟩
      intro t' ht'
      obtain ⟨x, hx, found', htask⟩ := htasks t' ht'
      exact .explore hexplore hx htask
  | @drop p g rest tried hpending _ => exact ⟨_, rest, [], hpending, rfl, by simp⟩
  | @jump p q g rest r hpending hr _ _ _ hresume =>
      refine ⟨_, rest, [.explore q], hpending, rfl, ?_⟩
      intro t' ht'
      rw [List.mem_singleton.mp ht']
      exact .watch hr hresume

/-- A property of tasks that spawned tasks have again holds of all tasks of a run. -/
theorem Reaches.forall_pending {P : Task → Prop} (h : Reaches s m m')
    (hspawns : ∀ t t', P t → t.Spawns s t' → P t') (hm : ∀ t ∈ m.pending, P t) :
    ∀ t ∈ m'.pending, P t := by
  induction h with
  | refl => exact hm
  | tail _ hnext ih =>
      obtain ⟨t, rest, tasks, hpending, hpending', htasks⟩ := pending_of_next hnext
      rw [hpending] at ih
      intro t' ht'
      rw [hpending'] at ht'
      rcases List.mem_append.mp ht' with ht' | ht'
      · exact hspawns t t' (ih t List.mem_cons_self) (htasks t' ht')
      · exact ih t' (List.mem_cons_of_mem _ ht')

end Machine

/-! ### Runs without recovery rules -/

namespace Position

variable (s : Setting)

/-- Exploring the position leads to the other one. -/
def LeadsOn (p q : Position) : Prop := ∃ effects, s.explore p = .ok effects ∧ .visit q ∈ effects

/-- Exploring the position, and what it leads to, comes to the other one. -/
def Reaches : Position → Position → Prop := Relation.ReflTransGen (LeadsOn s)

/-- The effect comes of exploring the position, or of exploring one that it comes to. -/
def Emits (p : Position) (x : Effect) : Prop :=
  ∃ q effects, p.Reaches s q ∧ s.explore q = .ok effects ∧ x ∈ effects

end Position

section

variable {s : Setting} {p : Position} {effects : List Effect}

/-- A position comes to itself, and to what the positions come to that it leads to. -/
theorem Position.reaches_iff (h : s.explore p = .ok effects) (q : Position) :
    p.Reaches s q ↔ p = q ∨ ∃ r ∈ visits effects, r.Reaches s q := by
  rw [Reaches, Relation.ReflTransGen.cases_head_iff]
  refine or_congr Iff.rfl ⟨?_, ?_⟩
  · rintro ⟨r, ⟨effects', heffects', hr⟩, hreaches⟩
    cases h.symm.trans heffects'
    exact ⟨r, mem_visits.mpr hr, hreaches⟩
  · rintro ⟨r, hr, hreaches⟩
    exact ⟨r, ⟨effects, h, mem_visits.mp hr⟩, hreaches⟩

/-- A position emits what exploring it puts out, and what the positions emit that it leads to. -/
theorem Position.emits_iff (h : s.explore p = .ok effects) (x : Effect) :
    p.Emits s x ↔ x ∈ effects ∨ ∃ r ∈ visits effects, r.Emits s x := by
  constructor
  · rintro ⟨q, effects', hreaches, heffects', hx⟩
    rcases (p.reaches_iff h q).mp hreaches with rfl | ⟨r, hr, hreaches⟩
    · cases h.symm.trans heffects'
      exact Or.inl hx
    · exact Or.inr ⟨r, hr, q, effects', hreaches, heffects', hx⟩
  · rintro (hx | ⟨r, hr, q, effects', hreaches, heffects', hx⟩)
    · exact ⟨p, effects, .refl, h, hx⟩
    · exact ⟨q, effects', (p.reaches_iff h q).mpr (Or.inr ⟨r, hr, hreaches⟩), heffects', hx⟩

end

namespace Machine

/-- The machine has found what the effect says. -/
def Shows (m : Machine) : Effect → Prop
  | .finish => m.reachedEnd = true
  | .report c => c ∈ m.found
  | _ => False

/-- After some outputs a machine shows them besides what it showed before. -/
theorem shows_after (m : Machine) (outs : List Effect) {x : Effect} (hx : x.isOutput = true) :
    (m.after outs).Shows x ↔ m.Shows x ∨ x ∈ outs := by
  cases x with
  | finish => simp [Shows, after]
  | report c =>
      have hmem : c ∈ outs.filterMap Effect.candidate? ↔ Effect.report c ∈ outs := by
        rw [List.mem_filterMap]
        constructor
        · rintro ⟨x, hmem, hc⟩
          cases x <;> cases hc
          exact hmem
        · exact fun hmem => ⟨_, hmem, rfl⟩
      simp [Shows, after, hmem]
  | visit p => cases hx
  | guard p recovery level => cases hx

/-- What a machine shows does not depend on its tasks. -/
theorem shows_withPending (m : Machine) (tasks : List Task) (x : Effect) :
    (m.withPending tasks).Shows x ↔ m.Shows x := by
  cases x <;> exact Iff.rfl

variable {s : Setting} {m m' : Machine}

/-- Without recovery rules a machine that comes to an end has explored every position that its
pending positions come to, and has found what they put out. -/
theorem Reaches.explored (hrecovery : s.options.recovery = []) (h : Reaches s m m')
    (hdone : m'.pending = []) {ps : List Position} (hps : m.pending = ps.map .explore) :
    (∀ p ∈ ps, ∀ q, p.Reaches s q → ∃ effects, s.explore q = .ok effects) ∧
      ∀ x : Effect, x.isOutput = true → (m'.Shows x ↔ m.Shows x ∨ ∃ p ∈ ps, p.Emits s x) := by
  -- Induction from the first machine on. A position is taken from the stack and replaced by the
  -- positions that it leads to.
  induction h using Relation.ReflTransGen.head_induction_on generalizing ps with
  | refl =>
      obtain rfl : ps = [] := by simpa [hdone] using hps.symm
      exact ⟨by simp, by simp⟩
  | @head m next hnext _ ih =>
      obtain ⟨hmore, hstep⟩ := hnext
      cases ps with
      | nil => exact absurd hps hmore
      | cons p ps =>
          cases hexplore : s.explore p with
          | error halt =>
              obtain ⟨pending, found, reachedEnd, stats, tried⟩ := m
              simp only at hps
              simp only [hps, List.map_cons, step, hexplore] at hstep
              cases hstep
          | ok effects =>
              -- No guards are set, so the stack gets the positions that `p` leads to and no more.
              have hguards := isGuard_of_explore hrecovery hexplore
              rw [step_explore hps hexplore hguards, Except.ok.injEq] at hstep
              obtain ⟨hexplored, hshows⟩ := @ih (visits effects ++ ps)
                (by rw [← hstep, List.map_append]; rfl)
              constructor
              · intro p' hp' q hq
                rcases List.mem_cons.mp hp' with rfl | hp'
                · rcases (Position.reaches_iff hexplore q).mp hq with rfl | ⟨r, hr, hq⟩
                  · exact ⟨effects, hexplore⟩
                  · exact hexplored r (List.mem_append_left _ hr) q hq
                · exact hexplored p' (List.mem_append_right _ hp') q hq
              · intro x hx
                have hmem : x ∈ outputs effects ↔ x ∈ effects := by simp [outputs, hx]
                rw [hshows x hx, ← hstep, shows_withPending, shows_after m _ hx, hmem, or_assoc]
                refine or_congr Iff.rfl ?_
                simp only [List.mem_append, List.mem_cons, or_and_right, exists_or,
                  exists_eq_left, Position.emits_iff hexplore, or_assoc]

end Machine

/-- Where the traversal of a rule starts. -/
def Position.first (rule : RuleIndex) (start : StateId) : Position :=
  ⟨start, 0, [], [⟨rule, none, 0⟩], 0⟩

/-- A traversal of an existing rule that ends is the run of a machine. -/
theorem Traversal.exists_run {s : Setting} {limit : Nat} {rule : RuleIndex} {start : StateId}
    {t : Traversal} (hstart : s.network.start? rule = some start) (h : run s limit rule = .ok t) :
    ∃ last, Machine.run s limit (.start rule start) = .ok last ∧ t = ofMachine last := by
  simp only [run, hstart] at h
  cases hrun : Machine.run s limit (.start rule start) with
  | error halt =>
      rw [hrun] at h
      cases h
  | ok last =>
      rw [hrun] at h
      exact ⟨last, rfl, (Except.ok.inj h).symm⟩

/-- A traversal without recovery rules that ends has explored every position that the start of its
rule comes to. It has found what these positions put out. -/
theorem Traversal.run_spec {s : Setting} {limit : Nat} {rule : RuleIndex} {start : StateId}
    {t : Traversal} (hrecovery : s.options.recovery = [])
    (hstart : s.network.start? rule = some start) (h : run s limit rule = .ok t) :
    (∀ q, (Position.first rule start).Reaches s q → ∃ effects, s.explore q = .ok effects) ∧
      (∀ c, c ∈ t.found ↔ (Position.first rule start).Emits s (.report c)) ∧
      (t.reachedEnd = true ↔ (Position.first rule start).Emits s .finish) := by
  obtain ⟨last, hrun, rfl⟩ := exists_run hstart h
  obtain ⟨hreaches, hdone⟩ := Machine.reaches_of_run hrun
  have hpending : (Machine.start rule start).pending =
      [Position.first rule start].map .explore := rfl
  obtain ⟨hexplored, hshows⟩ := hreaches.explored hrecovery hdone hpending
  refine ⟨hexplored _ List.mem_cons_self, fun c => ?_, ?_⟩
  · have := hshows (.report c) rfl
    simpa [Machine.Shows, Machine.start, ofMachine] using this
  · have := hshows .finish rfl
    simpa [Machine.Shows, Machine.start, ofMachine] using this

end Caret
