import Caret.Proofs.Jumps

/-!
# `Caret.Proofs.Conservation`: recovery loses nothing

A traversal with recovery rules does all that the traversal without them does, in the same order,
and more: it sets guards, and it explores what its jumps lead to. So what is found without recovery
rules is found with them, in the same order, and as long as no jump is made there is no difference
(`recovery_loses_nothing`).

The two machines run side by side. `Machine.Within m₀ m` says that the tasks and the findings of the
machine without recovery are among those of the other one. A step of the other machine is either a
step of both, where the position that is explored stands on top of both stacks, or one that the
machine without recovery does not make. `Machine.Within.next` proves this for a step and
`Machine.Within.run` for a run.
-/

set_option autoImplicit false

namespace Caret

/-! ### Settings without recovery rules -/

/-- The setting is the other one without its recovery rules. What the other one knows about
nullability it knows as well. -/
structure Setting.Unguards (s₀ s : Setting) : Prop where
  network_eq : s₀.network = s.network
  stream_eq : s₀.stream = s.stream
  reported_eq : s₀.options.reported = s.options.reported
  firstTokens_eq : s₀.options.firstTokens = s.options.firstTokens
  recovery_eq : s₀.options.recovery = []
  nullable_eq : ∀ rule b, s.nullable rule = .ok b → s₀.nullable rule = .ok b

/-- The effects that are no guards. -/
def unguarded (effects : List Effect) : List Effect := effects.filter fun e => !e.isGuard

section

variable {effects effects' : List Effect}

/-- Guards can be dropped list by list. -/
@[simp] theorem unguarded_append :
    unguarded (effects ++ effects') = unguarded effects ++ unguarded effects' :=
  List.filter_append _ _

/-- Where there are no guards, nothing is dropped. -/
theorem unguarded_eq_self (h : ∀ e ∈ effects, e.isGuard = false) : unguarded effects = effects := by
  rw [unguarded, List.filter_eq_self]
  intro e he
  simp [h e he]

variable {s₀ s : Setting} {p : Position}

/-- Entering a rule without recovery rules sets no guard and does the same otherwise. -/
theorem unguarded_enter (h : s₀.Unguards s) (start : StateId) (rule : RuleIndex)
    (follow : StateId) (level : Int) :
    unguarded (s.enter p start rule follow level) = s₀.enter p start rule follow level := by
  simp only [Setting.enter, h.recovery_eq, List.findIdx?_nil]
  split <;> rfl

/-- A call without recovery rules has the same effects, but for the guard. -/
theorem call_unguarded (h : s₀.Unguards s) {start : StateId} {rule : RuleIndex} {follow : StateId}
    {level : Int} (hcall : s.call p start rule follow level = .ok effects) :
    s₀.call p start rule follow level = .ok (unguarded effects) := by
  simp only [Setting.call, h.stream_eq, h.firstTokens_eq, h.reported_eq] at hcall ⊢
  split at hcall
  · split at hcall
    · -- The rule is reported, and its nullability decides whether the way goes on.
      rename_i hreported
      rw [if_pos hreported]
      cases hn : s.nullable rule with
      | error halt =>
          rw [hn] at hcall
          cases hcall
      | ok nullable =>
          rw [hn] at hcall
          rw [h.nullable_eq rule nullable hn, ← Except.ok.inj hcall]
          cases nullable <;> rfl
    · rename_i hreported
      rw [if_neg hreported]
      split at hcall
      · -- The table answers. Candidates and positions are no guards.
        rw [← Except.ok.inj hcall, unguarded_eq_self]
        intro e he
        rcases List.mem_append.mp he with he | he
        · obtain ⟨c, -, rfl⟩ := List.mem_map.mp he
          rfl
        · split at he
          · rw [List.mem_singleton.mp he]
            rfl
          · cases he
      · rw [← Except.ok.inj hcall, unguarded_enter h]
  · rw [← Except.ok.inj hcall]
    split
    · rw [unguarded_enter h]
    · rfl
  · rw [← Except.ok.inj hcall, unguarded_enter h]

/-- Reading has nothing to do with recovery rules. -/
theorem read_unguarded (h : s₀.Unguards s) {target : StateId} {label : Label}
    (hread : s.read p (.read target label) = .ok effects) :
    s₀.read p (.read target label) = .ok (unguarded effects) := by
  have hguards : ∀ e ∈ effects, e.isGuard = false := by
    intro e he
    rcases effect_of_read hread he with ⟨c, rfl⟩ | ⟨t, -, rfl⟩ <;> rfl
  rw [unguarded_eq_self hguards, ← hread]
  simp only [Setting.read, h.stream_eq, h.network_eq]

/-- Passing sets no guard. -/
theorem unguarded_pass (leaving : Bool) (target : StateId) :
    unguarded (Setting.pass p leaving target) = Setting.pass p leaving target := by
  refine unguarded_eq_self fun e he => ?_
  rw [(effect_of_pass he).2]
  rfl

/-- Along an edge the effects are the same, but for the guard of a call. -/
theorem follow_unguarded (h : s₀.Unguards s) {leaving : Bool} {e : Edge}
    (hfollow : s.follow p leaving e = .ok effects) :
    s₀.follow p leaving e = .ok (unguarded effects) := by
  rw [Setting.follow.eq_def] at hfollow ⊢
  rw [h.network_eq]
  -- An edge to a state that is not there leads nowhere in both settings.
  split at hfollow
  · rename_i hnone
    rw [if_pos hnone, ← Except.ok.inj hfollow]
    rfl
  · rename_i hsome
    rw [if_neg hsome]
    cases e with
    | epsilon t => rw [← Except.ok.inj hfollow, unguarded_pass]
    | command t index => rw [← Except.ok.inj hfollow, unguarded_pass]
    | gate t level =>
        rw [← Except.ok.inj hfollow]
        simp only
        split
        · rfl
        · rw [unguarded_pass]
    | call t rule f level =>
        simp only at hfollow ⊢
        split at hfollow
        · rename_i hpassed
          rw [if_pos hpassed, ← Except.ok.inj hfollow]
          rfl
        · rename_i hnew
          rw [if_neg hnew]
          exact call_unguarded h hfollow
    | read t label => exact read_unguarded h hfollow

/-- The same for all edges of a state. -/
theorem followAll_unguarded (h : s₀.Unguards s) {leaving : Bool} {edges : List Edge}
    (hfollow : s.followAll p leaving edges = .ok effects) :
    s₀.followAll p leaving edges = .ok (unguarded effects) := by
  induction edges generalizing effects with
  | nil =>
      rw [← Except.ok.inj hfollow]
      rfl
  | cons e edges ih =>
      obtain ⟨later, here, hlater, hhere, rfl⟩ := exists_of_followAll_cons hfollow
      rw [followAll_cons_ok (ih hlater) (follow_unguarded h hhere), unguarded_append]

/-- Exploring a position without recovery rules has the same effects, but for the guards. -/
theorem explore_unguarded (h : s₀.Unguards s) (hexplore : s.explore p = .ok effects) :
    s₀.explore p = .ok (unguarded effects) := by
  simp only [Setting.explore, h.network_eq, h.stream_eq] at hexplore ⊢
  -- The two settings have the same network and the same tokens, so they take the same branches.
  split at hexplore
  · rw [← Except.ok.inj hexplore]
    rfl
  · split at hexplore
    · rename_i hstop
      rw [if_pos hstop]
      split at hexplore
      · exact followAll_unguarded h hexplore
      · rw [← Except.ok.inj hexplore]
        split <;> rfl
    · rename_i hinside
      rw [if_neg hinside]
      exact followAll_unguarded h hexplore

end

/-! ### Two machines side by side -/

/-- Whether the task is a position to explore. -/
def Task.isExplore : Task → Bool
  | .explore _ => true
  | .watch _ _ => false

namespace Machine

/-- What the first machine has to do and has found, the other one has as well, in the same order.
The first one has no guards, and unless the other one has made a jump it has nothing else that the
first one has not. -/
structure Within (m₀ m : Machine) : Prop where
  pending : m₀.pending.Sublist m.pending
  unguarded : ∀ t ∈ m₀.pending, t.isExplore = true
  found : m₀.found.toList.Sublist m.found.toList
  reachedEnd : m₀.reachedEnd = true → m.reachedEnd = true
  stats_eq : m₀.stats = .empty
  same : m.stats = .empty → m₀.pending = m.pending.filter Task.isExplore ∧ m₀.found = m.found ∧
    m₀.reachedEnd = m.reachedEnd

namespace Within

variable {s₀ s : Setting} {m₀ m m' : Machine}

/-- Both machines start with the same task. -/
theorem start (rule : RuleIndex) (state : StateId) :
    Within (.start rule state) (.start rule state) where
  pending := .refl _
  unguarded := by simp [Machine.start, Task.isExplore]
  found := .refl _
  reachedEnd := id
  stats_eq := rfl
  same _ := ⟨rfl, rfl, rfl⟩

/-- An effect that both machines meet with. -/
theorem apply (h : Within m₀ m) {e : Effect} (he : e.isGuard = false) :
    Within (m₀.apply e) (m.apply e) := by
  obtain ⟨hpending, hunguarded, hfound, hend, hstats, hsame⟩ := h
  cases e with
  | finish =>
      refine ⟨hpending, hunguarded, hfound, fun _ => rfl, hstats, fun hempty => ?_⟩
      exact ⟨(hsame hempty).1, (hsame hempty).2.1, rfl⟩
  | report c =>
      refine ⟨hpending, hunguarded, ?_, hend, hstats, fun hempty => ?_⟩
      · simpa [Machine.apply] using hfound.append_right [c]
      · exact ⟨(hsame hempty).1, congrArg (·.push c) (hsame hempty).2.1, (hsame hempty).2.2⟩
  | visit p =>
      refine ⟨hpending.cons_cons _, ?_, hfound, hend, hstats, fun hempty => ?_⟩
      · intro t ht
        rcases List.mem_cons.mp ht with rfl | ht
        · rfl
        · exact hunguarded t ht
      · exact ⟨congrArg (Task.explore p :: ·) (hsame hempty).1, (hsame hempty).2⟩
  | guard p recovery level => cases he

/-- A guard that only the other machine has. -/
theorem apply_guard (h : Within m₀ m) {e : Effect} (he : e.isGuard = true) :
    Within m₀ (m.apply e) := by
  cases e with
  | guard p recovery level =>
      exact ⟨h.pending.cons _, h.unguarded, h.found, h.reachedEnd, h.stats_eq, h.same⟩
  | _ => cases he

/-- The effects of one exploration that both machines make. The guards among them go to the other
machine only. -/
theorem foldl_apply (h : Within m₀ m) (effects : List Effect) :
    Within ((Caret.unguarded effects).foldl Machine.apply m₀)
      (effects.foldl Machine.apply m) := by
  induction effects generalizing m₀ m with
  | nil => exact h
  | cons e effects ih =>
      -- A guard is an effect of the other machine alone.
      cases he : e.isGuard with
      | true =>
          have hskip : Caret.unguarded (e :: effects) = Caret.unguarded effects := by
            simp [Caret.unguarded, he]
          rw [hskip]
          exact ih (h.apply_guard he)
      | false =>
          have hkeep : Caret.unguarded (e :: effects) = e :: Caret.unguarded effects := by
            simp [Caret.unguarded, he]
          rw [hkeep]
          exact ih (h.apply he)

/-- Effects that only the other machine meets with, after a jump. -/
theorem foldl_apply_right (h : Within m₀ m) (hjumped : m.stats ≠ .empty) (effects : List Effect) :
    Within m₀ (effects.foldl Machine.apply m) := by
  induction effects generalizing m with
  | nil => exact h
  | cons e effects ih =>
      have hstats : (m.apply e).stats = m.stats := (foldl_apply_stats [e] m).1
      refine ih ?_ (by rw [hstats]; exact hjumped)
      obtain ⟨hpending, hunguarded, hfound, hend, hstats₀, -⟩ := h
      have hsame : (m.apply e).stats = .empty → m₀.pending =
          (m.apply e).pending.filter Task.isExplore ∧ m₀.found = (m.apply e).found ∧
            m₀.reachedEnd = (m.apply e).reachedEnd :=
        fun hempty => absurd (hstats ▸ hempty) hjumped
      cases e with
      | finish => exact ⟨hpending, hunguarded, hfound, fun _ => rfl, hstats₀, hsame⟩
      | report c =>
          refine ⟨hpending, hunguarded, ?_, hend, hstats₀, hsame⟩
          simpa [Machine.apply] using hfound.trans (List.sublist_append_left _ [c])
      | visit p => exact ⟨hpending.cons _, hunguarded, hfound, hend, hstats₀, hsame⟩
      | guard p recovery level => exact ⟨hpending.cons _, hunguarded, hfound, hend, hstats₀, hsame⟩

/-- A task that the first machine does not have on top of its stack can be taken from the other
one. -/
theorem drop (h : Within m₀ m) {t : Task} {rest : List Task} (hpending : m.pending = t :: rest)
    (hne : m₀.pending.head? ≠ some t) : Within m₀ (m.withPending rest) := by
  refine ⟨?_, h.unguarded, h.found, h.reachedEnd, h.stats_eq, fun hempty => ?_⟩
  · have hsub := h.pending
    rw [hpending, List.sublist_cons_iff] at hsub
    rcases hsub with hsub | ⟨rest₀, hpending₀, -⟩
    · exact hsub
    · exact absurd (by rw [hpending₀]; rfl) hne
  · obtain ⟨htasks, hrest⟩ := h.same hempty
    rw [hpending] at htasks
    cases ht : t.isExplore with
    | true => exact absurd (by rw [htasks, List.filter_cons_of_pos ht]; rfl) hne
    | false => exact ⟨htasks.trans (List.filter_cons_of_neg (by simp [ht])), hrest⟩

/-- A guard is not on the stack of the first machine. -/
theorem head?_ne_watch (h : Within m₀ m) (p : Position) (g : Guard) :
    m₀.pending.head? ≠ some (.watch p g) := by
  intro htop
  cases h.unguarded _ (List.mem_of_mem_head? htop)

/-- A position on top of both stacks can be taken from both. -/
theorem tail (h : Within m₀ m) {t : Task} {rest₀ rest : List Task}
    (hpending₀ : m₀.pending = t :: rest₀) (hpending : m.pending = t :: rest) :
    Within (m₀.withPending rest₀) (m.withPending rest) := by
  obtain ⟨hsub, hunguarded, hfound, hend, hstats, hsame⟩ := h
  rw [hpending₀] at hsub hunguarded hsame
  rw [hpending] at hsub hsame
  refine ⟨List.cons_sublist_cons.mp hsub, fun t' ht' => hunguarded t' (List.mem_cons_of_mem _ ht'),
    hfound, hend, hstats, fun hempty => ?_⟩
  obtain ⟨htasks, hrest⟩ := hsame hempty
  rw [List.filter_cons_of_pos (hunguarded t List.mem_cons_self)] at htasks
  exact ⟨(List.cons.inj htasks).2, hrest⟩

/-- If the other machine has nothing left to do, neither has the first. -/
theorem run_done (h : Within m₀ m) (hdone : m.pending = []) (heq : m = m') {limit₀ : Nat} :
    ∃ m₀', Machine.run s₀ limit₀ m₀ = .ok m₀' ∧ Within m₀' m' := by
  have hsub := h.pending
  rw [hdone] at hsub
  exact ⟨m₀, Machine.run_done (List.sublist_nil.mp hsub), heq ▸ h⟩

/-- A step of the other machine is a step of both, or none of the first. -/
theorem next (hs : s₀.Unguards s) (h : Within m₀ m) (hnext : Next s m m') :
    Within m₀ m' ∨ ∃ m₀', Next s₀ m₀ m₀' ∧ Within m₀' m' := by
  cases hnext.advance with
  | @explore p rest effects hpending hexplore =>
      by_cases htop : m₀.pending.head? = some (.explore p)
      · -- Both machines explore the position, and their effects differ in the guards alone.
        obtain ⟨rest₀, hpending₀⟩ := List.head?_eq_some_iff.mp htop
        refine Or.inr ⟨_, ⟨by simp [hpending₀], ?_⟩,
          (h.tail hpending₀ hpending).foldl_apply effects⟩
        obtain ⟨pending₀, found₀, reachedEnd₀, stats₀, tried₀⟩ := m₀
        cases hpending₀
        simp only [step, explore_unguarded hs hexplore]
        rfl
      · -- Only a jump can have led the other machine to a position of its own.
        have hjumped : m.stats ≠ .empty := by
          intro hempty
          have htasks := (h.same hempty).1
          rw [hpending, List.filter_cons_of_pos rfl] at htasks
          exact htop (by rw [htasks]; rfl)
        exact Or.inl ((h.drop hpending htop).foldl_apply_right hjumped effects)
  | @drop p g rest tried hpending _ =>
      -- Only the other machine has guards.
      have hrest := h.drop hpending (h.head?_ne_watch p g)
      exact Or.inl ⟨hrest.pending, hrest.unguarded, hrest.found, hrest.reachedEnd, hrest.stats_eq,
        hrest.same⟩
  | @jump p q g rest r hpending _ _ _ _ _ =>
      have hrest := h.drop hpending (h.head?_ne_watch p g)
      refine Or.inl ⟨hrest.pending.cons _, hrest.unguarded, hrest.found, hrest.reachedEnd,
        hrest.stats_eq, fun hempty => ?_⟩
      -- From now on the other machine has used a recovery rule.
      have hsum := RecoveryStats.sum_record m.stats r
      rw [show m.stats.record r = .empty from hempty] at hsum
      cases hsum

/-- If the other machine ends, so does the first, and it takes no more steps. -/
theorem run (hs : s₀.Unguards s) (h : Within m₀ m) {limit limit₀ : Nat}
    (hrun : Machine.run s limit m = .ok m') (hle : limit ≤ limit₀) :
    ∃ m₀', Machine.run s₀ limit₀ m₀ = .ok m₀' ∧ Within m₀' m' := by
  -- Induction on the steps that the other machine may take. The first one is allowed as many and
  -- needs no more.
  induction limit generalizing m₀ m limit₀ with
  | zero =>
      rw [Machine.run] at hrun
      split at hrun
      · rename_i hdone
        exact h.run_done (List.isEmpty_iff.mp hdone) (Except.ok.inj hrun)
      · cases hrun
  | succ limit ih =>
      rw [Machine.run] at hrun
      split at hrun
      · rename_i hdone
        exact h.run_done (List.isEmpty_iff.mp hdone) (Except.ok.inj hrun)
      · rename_i hmore
        cases hstep : step s m with
        | error halt =>
            simp only [hstep] at hrun
            cases hrun
        | ok next =>
            simp only [hstep] at hrun
            have hnext : Next s m next := ⟨fun hnil => hmore (List.isEmpty_iff.mpr hnil), hstep⟩
            rcases h.next hs hnext with hstays | ⟨next₀, hnext₀, hmoves⟩
            -- A step of the other machine alone is not counted by the first one.
            · exact ih hstays hrun (by omega)
            · obtain ⟨limit₀, rfl⟩ : ∃ l, limit₀ = l + 1 := ⟨limit₀ - 1, by omega⟩
              rw [run_succ hnext₀.1 hnext₀.2]
              exact ih hmoves hrun (by omega)

end Within

end Machine

/-! ### Traversals -/

/-- A setting without recovery rules is the one without its recovery rules. -/
theorem Setting.Unguards.refl {s : Setting} (h : s.options.recovery = []) : s.Unguards s :=
  ⟨rfl, rfl, rfl, rfl, h, fun _ _ => id⟩

namespace Traversal

variable {s₀ s : Setting} {limit limit₀ : Nat} {rule : RuleIndex} {T : Traversal}

/-- A traversal ends without recovery rules if it does with them. What it finds is found with them
as well, and if they are not used there is no difference. -/
theorem run_unguarded (hs : s₀.Unguards s) (h : run s limit rule = .ok T) (hle : limit ≤ limit₀) :
    ∃ T₀, run s₀ limit₀ rule = .ok T₀ ∧ T₀.stats = .empty ∧ T₀.found.Sublist T.found ∧
      (T₀.reachedEnd = true → T.reachedEnd = true) ∧ (T.stats = .empty → T₀ = T) := by
  cases hstart : s.network.start? rule with
  | none =>
      simp only [run, hs.network_eq, hstart, Except.ok.injEq] at h ⊢
      subst h
      exact ⟨empty, rfl, rfl, .refl _, id, fun _ => rfl⟩
  | some start =>
      obtain ⟨last, hrun, rfl⟩ := exists_run hstart h
      obtain ⟨last₀, hrun₀, hwithin⟩ := (Machine.Within.start rule start).run hs hrun hle
      simp only [run, hs.network_eq, hstart, hrun₀]
      refine ⟨ofMachine last₀, rfl, hwithin.stats_eq, hwithin.found, hwithin.reachedEnd, ?_⟩
      intro hempty
      obtain ⟨-, hfound, hend⟩ := hwithin.same hempty
      show Traversal.mk last₀.found.toList last₀.reachedEnd last₀.stats = ofMachine last
      rw [hfound, hend, hwithin.stats_eq, ← show last.stats = .empty from hempty]
      rfl

/-- Without recovery rules a traversal ends the same way if more steps are allowed. -/
theorem run_of_le (hs : s₀.Unguards s) (hrecovery : s.options.recovery = [])
    (h : run s limit rule = .ok T) (hle : limit ≤ limit₀) : run s₀ limit₀ rule = .ok T := by
  have hempty : T.stats = .empty := by
    obtain ⟨T', h', hstats, -⟩ := run_unguarded (.refl hrecovery) h (Nat.le_refl limit)
    cases h.symm.trans h'
    exact hstats
  obtain ⟨T₀, h₀, -, -, -, hsame⟩ := run_unguarded hs h hle
  rw [h₀, hsame hempty]

end Traversal

/-- The options without their recovery rules. -/
def Options.unguarded (options : Options) : Options := { options with recovery := [] }

/-- What is known about nullability stays known if more steps are allowed. -/
theorem Setting.unguards_ofOptions (n : Network) (stream : TokenStream) (options : Options)
    {limit limit₀ : Nat} (hle : limit ≤ limit₀) :
    (Setting.ofOptions n stream options.unguarded limit₀).Unguards
      (.ofOptions n stream options limit) := by
  refine ⟨rfl, rfl, rfl, rfl, rfl, fun rule b hb => ?_⟩
  have htable₀ : options.unguarded.firstTokens = options.firstTokens := rfl
  -- Nullability is looked up in the table, if there is one. Otherwise it is found out by
  -- traversals, which end the same way with more steps.
  cases htable : options.firstTokens with
  | some f =>
      simp only [ofOptions, htable₀, htable] at hb ⊢
      exact hb
  | none =>
      have hget : ∀ limit, (nullabilities n limit)[rule]? =
          if rule < n.ruleCount then some (Thunk.mk fun _ =>
            (Traversal.atStart n limit rule).map Traversal.reachedEnd) else none := by
        intro limit
        by_cases hrule : rule < n.ruleCount <;> simp [nullabilities, hrule]
      simp only [ofOptions, htable₀, htable, hget] at hb ⊢
      by_cases hrule : rule < n.ruleCount
      · simp only [if_pos hrule] at hb ⊢
        obtain ⟨T, hT, hb⟩ := exists_of_map_ok hb
        have hT₀ : Traversal.atStart n limit₀ rule = .ok T :=
          Traversal.run_of_le (.refl rfl) rfl hT hle
        show (Traversal.atStart n limit₀ rule).map _ = _
        rw [hT₀, ← hb]
        rfl
      · simp only [if_neg hrule] at hb ⊢
        exact hb

/-- A traversal that ends with recovery rules ends without them. What is found without them is found
with them in the same order, the end is reached with them if it is without them, and if no recovery
rule was used the two traversals have found the same. -/
theorem recovery_loses_nothing {n : Network} {w : List TokenType} {options : Options} {limit : Nat}
    {rule : RuleIndex} {T : Traversal} (h : traverse n ⟨w.toArray⟩ options limit rule = .ok T) :
    ∃ T₀, Ends (fun limit => traverse n ⟨w.toArray⟩ { options with recovery := [] } limit rule) T₀ ∧
      T₀.found.Sublist T.found ∧ (T₀.reachedEnd = true → T.reachedEnd = true) ∧
      (T.stats.isEmpty = true → T₀.found = T.found ∧ T₀.reachedEnd = T.reachedEnd) := by
  have hs := Setting.unguards_ofOptions n ⟨w.toArray⟩ options (Nat.le_refl limit)
  obtain ⟨T₀, h₀, -, hfound, hend, hsame⟩ := Traversal.run_unguarded hs h (Nat.le_refl limit)
  refine ⟨T₀, ⟨limit, fun limit₀ hle => ?_⟩, hfound, hend, fun hempty => ?_⟩
  · have hmore := Setting.unguards_ofOptions n ⟨w.toArray⟩ options.unguarded hle
    exact Traversal.run_of_le hmore rfl h₀ hle
  · have hstats : T.stats = .empty := by
      obtain ⟨found, reachedEnd, counts⟩ := T
      exact congrArg RecoveryStats.mk (List.isEmpty_iff.mp hempty)
    rw [hsame hstats]
    exact ⟨rfl, rfl⟩

/-- If a fix fails, start one anew behind the next `y`. -/
def anotherFix : RecoveryRule := ⟨2, 3, .goToRule 2, true, false⟩

/-- After `x y` comes the end. The alternative to the block fails, and recovery finds one more
candidate there. -/
theorem block_loses_nothing :
    traverse blockNetwork ⟨#[2, 3]⟩ ⟨[], [anotherFix], none⟩ 100 0 =
      .ok ⟨[⟨.token 1, [[0]]⟩, ⟨.token 4, [[0, 2]]⟩], false,
        RecoveryStats.empty.record anotherFix⟩ ∧
    ∃ T₀, Ends (fun limit => traverse blockNetwork ⟨#[2, 3]⟩ .none limit 0) T₀ ∧
      T₀.found.Sublist [⟨.token 1, [[0]]⟩, ⟨.token 4, [[0, 2]]⟩] := by
  have hends : traverse blockNetwork ⟨#[2, 3]⟩ ⟨[], [anotherFix], none⟩ 100 0 =
      .ok ⟨[⟨.token 1, [[0]]⟩, ⟨.token 4, [[0, 2]]⟩], false,
        RecoveryStats.empty.record anotherFix⟩ := by
    cbv
  obtain ⟨T₀, hends₀, hfound, -⟩ := recovery_loses_nothing (w := [2, 3]) hends
  exact ⟨hends, T₀, hends₀, hfound⟩

end Caret
