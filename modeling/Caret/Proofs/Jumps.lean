import Mathlib
import Caret.Proofs.Reentry

/-!
# `Caret.Proofs.Jumps`: how often a traversal recovers

A machine makes a jump when it looks at a guard and uses its recovery rule.
`Machine.Makes s m js m'` is a run from `m` to `m'` with the list of its jumps. A run that ends has
exactly one such list (`Traversal.exists_jumps`, `Traversal.Jumps.unique`).

What holds of the jumps of a run follows step by step from what one step can do
(`Machine.Advance`):

* a jump is made at a place where its recovery rule was not tried before, and is noted there, so no
  two jumps of a run agree in both (`Machine.Makes.fresh`);
* a jump goes forward to a token behind the place of the failure (`Machine.Makes.proper`);
* the statistics count the jumps (`Machine.Makes.attempts_eq`, `Machine.Makes.sum_eq`).

`recovery_is_idempotent` puts this together for traversals. Jumps differ in the rule that failed or
in the place of the failure, which has a token behind it, and so there are no more jumps than such
pairs.
-/

set_option autoImplicit false

namespace Caret

/-! ### Statistics -/

namespace RecoveryStats

/-- The number of uses of all rules. -/
def sum (s : RecoveryStats) : Nat := (s.counts.map RecoveryCount.attempts).sum

/-- Noting a use counts for the rule that was used and for no other. -/
theorem attempts_record (s : RecoveryStats) (r x : RecoveryRule) :
    (s.record r).attempts x = s.attempts x + if r = x then 1 else 0 := by
  obtain ⟨counts⟩ := s
  simp only [record, attempts]
  -- A use is counted in the first entry of its rule, or in a new one behind all others.
  induction counts with
  | nil =>
      by_cases hx : r = x
      · simp [recordIn, hx]
      · simp [recordIn, hx]
  | cons c counts ih =>
      rw [recordIn]
      by_cases hr : c.rule = r
      · by_cases hx : r = x
        · simp [hr, hx]
        · simp [hr, hx]
      · rw [if_neg hr]
        by_cases hx : c.rule = x
        · have hne : r ≠ x := fun heq => hr (hx.trans heq.symm)
          simp [hx, hne]
        · simpa [hx] using ih

/-- Noting a use counts once in all. -/
theorem sum_record (s : RecoveryStats) (r : RecoveryRule) : (s.record r).sum = s.sum + 1 := by
  obtain ⟨counts⟩ := s
  simp only [record, sum]
  induction counts with
  | nil => rfl
  | cons c counts ih =>
      rw [recordIn]
      split
      · simp only [List.map_cons, List.sum_cons]
        omega
      · simp only [List.map_cons, List.sum_cons, ih]
        omega

/-- Adding up numbers within a limit gives their sum, or fails if that is above the limit. Since
numbers are not negative, it does not matter where the limit is passed. -/
theorem foldlM_natAdd {max a : Nat} (xs : List Nat) (h : a ≤ max) :
    xs.foldlM (natAdd max) a =
      if a + xs.sum ≤ max then .ok (a + xs.sum) else .error .addition := by
  induction xs generalizing a with
  | nil => exact (if_pos h).symm
  | cons x xs ih =>
      rw [List.foldlM_cons, List.sum_cons, ← Nat.add_assoc]
      by_cases hx : a + x ≤ max
      · have hadd : natAdd max a x = .ok (a + x) := if_pos hx
        rw [hadd]
        exact ih hx
      · have hadd : natAdd max a x = .error .addition := if_neg hx
        rw [hadd, if_neg (by omega)]
        rfl

/-- The total is the number of uses, as long as that is an unsigned 64-bit number. -/
theorem total?_eq (s : RecoveryStats) :
    s.total? = if s.sum < 2 ^ 64 then .ok s.sum else .error .addition := by
  rw [total?, foldlM_natAdd _ (Nat.zero_le _), Nat.zero_add]
  exact if_congr (Nat.lt_succ_iff (n := nat64Max)).symm rfl rfl

end RecoveryStats

/-! ### Steps -/

namespace Machine

variable {s : Setting} {m m' : Machine}

/-- Effects leave the statistics and what was tried as they are. -/
theorem foldl_apply_stats (effects : List Effect) (m : Machine) :
    (effects.foldl apply m).stats = m.stats ∧ (effects.foldl apply m).tried = m.tried := by
  induction effects generalizing m with
  | nil => exact ⟨rfl, rfl⟩
  | cons e effects ih =>
      rw [List.foldl_cons, (ih _).1, (ih _).2]
      cases e <;> exact ⟨rfl, rfl⟩

/-- A step that is not a jump leaves the statistics as they are, and forgets nothing. -/
theorem Next.quiet (h : Next s m m') (hquiet : ∀ p g r q, ¬ m.Fires s p g r q m') :
    m'.stats = m.stats ∧ m.tried ⊆ m'.tried := by
  have hadvance := h.advance
  cases hadvance with
  | explore _ _ =>
      rw [(foldl_apply_stats _ _).1, (foldl_apply_stats _ _).2]
      exact ⟨rfl, List.Subset.refl _⟩
  | drop _ htried => exact ⟨rfl, htried⟩
  | @jump p q g rest r hpending hr _ _ _ _ =>
      refine absurd ⟨?_, hr, h.2, ?_⟩ (hquiet p g r q)
      · rw [hpending]
        rfl
      · rw [hpending]
        rfl

end Machine

/-! ### Runs with their jumps -/

/-- A recovery rule was used. -/
structure Jump where
  /-- The position of the recovery rule in its list. -/
  recovery : Nat
  rule : RecoveryRule
  /-- The number of tokens read where the call failed. -/
  failed : Nat
  /-- The number of tokens read or passed over where the machine goes on. -/
  resumed : Nat
deriving DecidableEq

/-- What a machine remembers of a jump. -/
def Jump.key (j : Jump) : Nat × Nat := (j.recovery, j.failed)

namespace Machine

/-- A machine comes to another one by doing tasks, and these are the jumps on the way. -/
inductive Makes (s : Setting) : Machine → List Jump → Machine → Prop where
  | refl (m : Machine) : Makes s m [] m
  | quiet {m next last : Machine} {js : List Jump} : Next s m next →
      (∀ p g r q, ¬ m.Fires s p g r q next) → Makes s next js last → Makes s m js last
  | jump {m next last : Machine} {js : List Jump} {p q : Position} {g : Guard}
      {r : RecoveryRule} : m.Fires s p g r q next → Makes s next js last →
        Makes s m (⟨g.recovery, r, p.index, q.index⟩ :: js) last

variable {s : Setting} {m m' last : Machine} {js : List Jump}

/-- A run with jumps is a run. -/
theorem Makes.reaches (h : Makes s m js last) : Reaches s m last := by
  induction h with
  | refl m => exact .refl
  | quiet hnext _ _ ih => exact .head hnext ih
  | jump hfires _ ih => exact .head hfires.next ih

/-- A run has jumps. -/
theorem Reaches.exists_makes (h : Reaches s m last) : ∃ js, Makes s m js last := by
  induction h using Relation.ReflTransGen.head_induction_on with
  | refl => exact ⟨[], .refl _⟩
  | @head m next hnext _ ih =>
      obtain ⟨js, hjs⟩ := ih
      by_cases hfires : ∃ p g r q, m.Fires s p g r q next
      · obtain ⟨p, g, r, q, hfires⟩ := hfires
        exact ⟨_, .jump hfires hjs⟩
      · exact ⟨js, .quiet hnext (fun p g r q h => hfires ⟨p, g, r, q, h⟩) hjs⟩

/-- A machine has at most one next machine. -/
theorem Next.unique {m₁ m₂ : Machine} (h₁ : Next s m m₁) (h₂ : Next s m m₂) : m₁ = m₂ :=
  Except.ok.inj (h₁.2.symm.trans h₂.2)

/-- A machine that has nothing left to do makes no step. -/
theorem not_next_of_done (hdone : m.pending = []) : ¬ Next s m m' := fun h => h.1 hdone

/-- A run to the end has one list of jumps. -/
theorem Makes.unique {last' : Machine} {js' : List Jump} (h : Makes s m js last)
    (hdone : last.pending = []) (h' : Makes s m js' last') (hdone' : last'.pending = []) :
    js = js' := by
  -- A machine has at most one next machine, so the two runs go along step by step.
  induction h generalizing js' with
  | refl m =>
      cases h' with
      | refl => rfl
      | quiet hnext _ _ => exact absurd hnext (not_next_of_done hdone)
      | jump hfires _ => exact absurd hfires.next (not_next_of_done hdone)
  | quiet hnext hquiet _ ih =>
      cases h' with
      | refl => exact absurd hnext (not_next_of_done hdone')
      | quiet hnext' _ hrest' =>
          obtain rfl := hnext.unique hnext'
          exact ih hdone hrest'
      | jump hfires' _ =>
          obtain rfl := hnext.unique hfires'.next
          exact absurd hfires' (hquiet _ _ _ _)
  | jump hfires _ ih =>
      cases h' with
      | refl => exact absurd hfires.next (not_next_of_done hdone')
      | quiet hnext' hquiet' _ =>
          obtain rfl := hfires.next.unique hnext'
          exact absurd hfires (hquiet' _ _ _ _)
      | jump hfires' hrest' =>
          obtain rfl := hfires.next.unique hfires'.next
          cases hfires.guarded.symm.trans hfires'.guarded
          cases hfires.rule_eq.symm.trans hfires'.rule_eq
          cases hfires.resumed.symm.trans hfires'.resumed
          rw [ih hdone hrest']

/-- No two jumps of a run use the same recovery rule at the same place, and none uses one that was
tried there before. -/
theorem Makes.fresh (h : Makes s m js last) :
    (js.map Jump.key).Nodup ∧ ∀ j ∈ js, j.key ∉ m.tried := by
  induction h with
  | refl m => exact ⟨List.nodup_nil, by simp⟩
  | quiet hnext hquiet _ ih =>
      refine ⟨ih.1, fun j hj hmem => ih.2 j hj ?_⟩
      exact (hnext.quiet hquiet).2 hmem
  | @jump m next last js p q g r hfires _ ih =>
      -- The key of the jump is new, and the machine remembers it for the rest of the run.
      obtain ⟨-, hnew, htried, -⟩ := hfires.spec
      rw [htried] at ih
      constructor
      · rw [List.map_cons, List.nodup_cons]
        refine ⟨fun hmem => ?_, ih.1⟩
        obtain ⟨j, hj, hkey⟩ := List.mem_map.mp hmem
        exact ih.2 j hj (hkey ▸ List.mem_cons_self)
      · intro j hj
        rcases List.mem_cons.mp hj with rfl | hj
        · exact hnew
        · exact fun hmem => ih.2 j hj (List.mem_cons_of_mem _ hmem)

/-- The statistics count the jumps that use a rule. -/
theorem Makes.attempts_eq (h : Makes s m js last) (x : RecoveryRule) :
    last.stats.attempts x = m.stats.attempts x + js.countP fun j => j.rule = x := by
  induction h with
  | refl m => rfl
  | quiet hnext hquiet _ ih => rw [ih, (hnext.quiet hquiet).1]
  | jump hfires _ ih =>
      rw [ih, hfires.spec.2.2.2, RecoveryStats.attempts_record, List.countP_cons]
      simp only [decide_eq_true_eq]
      omega

/-- All counts together are the number of jumps. -/
theorem Makes.sum_eq (h : Makes s m js last) : last.stats.sum = m.stats.sum + js.length := by
  induction h with
  | refl m => rfl
  | quiet hnext hquiet _ ih => rw [ih, (hnext.quiet hquiet).1]
  | jump hfires _ ih =>
      rw [ih, hfires.spec.2.2.2, RecoveryStats.sum_record, List.length_cons]
      omega

end Machine

/-! ### Where jumps start and end -/

/-- A token type is found behind the index, if at all. -/
theorem TokenStream.findAfter?_eq_some {stream : TokenStream} {t : TokenType} {index found : Nat}
    (h : stream.findAfter? t index = .ok (some found)) : index < found ∧ found < stream.caret := by
  rw [findAfter?, natAdd] at h
  split at h
  · obtain ⟨k, hk, rfl⟩ := Option.map_eq_some_iff.mp (Except.ok.inj h)
    have hlt := (List.findIdx?_eq_some_iff_getElem.mp hk).1
    rw [List.length_drop, Array.length_toList] at hlt
    rw [caret]
    omega
  · cases h

section

variable {s : Setting} {p : Position} {effects : List Effect}

/-- A call that sets a guard enters the rule. -/
theorem eq_enter_of_call {start : StateId} {rule : RuleIndex} {follow : StateId} {level : Int}
    (h : s.call p start rule follow level = .ok effects) {q : Position} {k : Nat} {l : Int}
    (hmem : .guard q k l ∈ effects) : effects = s.enter p start rule follow level := by
  rw [Setting.call] at h
  -- Of the ways that a call can take, only entering the rule sets a guard.
  split at h
  · split at h
    · cases hn : s.nullable rule with
      | error halt =>
          rw [hn] at h
          cases h
      | ok nullable =>
          rw [hn] at h
          rw [← Except.ok.inj h] at hmem
          cases nullable <;> simp at hmem
    · split at h
      · rw [← Except.ok.inj h] at hmem
        rcases List.mem_append.mp hmem with hmem | hmem
        · obtain ⟨c, -, hc⟩ := List.mem_map.mp hmem
          cases hc
        · split at hmem <;> simp at hmem
      · exact (Except.ok.inj h).symm
  · have heffects := Except.ok.inj h
    split at heffects
    · exact heffects.symm
    · rw [← heffects] at hmem
      cases hmem
  · exact (Except.ok.inj h).symm

/-- A guard is set for the first recovery rule of the rule that is called, below the entry of the
rule. -/
theorem guard_of_call {start : StateId} {rule : RuleIndex} {follow : StateId} {level : Int}
    (h : s.call p start rule follow level = .ok effects) {q : Position} {k : Nat} {l : Int}
    (hmem : .guard q k l ∈ effects) :
    s.options.recovery.findIdx? (·.inRule == rule) = some k ∧
      effects = [.guard (p.enter follow) k level,
        .visit (p.call start ⟨rule, some follow, level⟩)] := by
  obtain rfl := eq_enter_of_call h hmem
  rw [Setting.enter] at hmem ⊢
  split at hmem
  · rename_i k' hk'
    simp only [List.mem_cons, Effect.guard.injEq, List.not_mem_nil, reduceCtorEq, or_false]
      at hmem
    obtain ⟨-, rfl, -⟩ := hmem
    exact ⟨hk', rfl⟩
  · simp at hmem

/-- The same for the guards that an exploration sets. -/
theorem guard_of_explore (h : s.explore p = .ok effects) {q : Position} {k : Nat} {l : Int}
    (hmem : .guard q k l ∈ effects) :
    ∃ rule, s.options.recovery.findIdx? (·.inRule == rule) = some k := by
  rcases exists_departs_of_mem h hmem with ⟨hfinish, -⟩ | ⟨e, p', leaving, here, -, hhere, hmem⟩
  · cases hfinish
  · rcases effect_of_follow hhere hmem with ⟨-, -, -, hvisit⟩ |
        ⟨t, rule, f, level, -, -, hcall⟩ | ⟨t, label, -, hread⟩
    · cases hvisit
    · exact ⟨rule, (guard_of_call hcall hmem).1⟩
    · rcases effect_of_read hread hmem with ⟨c, hc⟩ | ⟨t, -, hvisit⟩
      · cases hc
      · cases hvisit

end

/-- The recovery rule stands at this position, and is the first one for its rule. -/
def Setting.IsFirst (s : Setting) (k : Nat) (r : RecoveryRule) : Prop :=
  s.options.recovery[k]? = some r ∧ s.options.recovery.findIdx? (·.inRule == r.inRule) = some k

/-- The search for a recovery rule of a rule ends at the first one. -/
theorem Setting.isFirst_of_findIdx? {s : Setting} {rule : RuleIndex} {k : Nat}
    (h : s.options.recovery.findIdx? (·.inRule == rule) = some k) : ∃ r, s.IsFirst k r := by
  obtain ⟨hlt, hrule, -⟩ := List.findIdx?_eq_some_iff_getElem.mp h
  refine ⟨s.options.recovery[k], List.getElem?_eq_getElem hlt, ?_⟩
  rw [beq_iff_eq.mp hrule]
  exact h

/-- A guard is for the first recovery rule of some rule. -/
def Task.GuardsFirst (s : Setting) : Task → Prop
  | .explore _ => True
  | .watch _ g => ∃ r, s.IsFirst g.recovery r

/-- A guard that a task puts on the stack is for a first recovery rule, whatever the task was. -/
theorem Task.GuardsFirst.of_spawns {s : Setting} {t t' : Task} (h : t.Spawns s t') :
    t'.GuardsFirst s := by
  cases h with
  | watch _ _ => trivial
  | @explore p effects x found t' hexplore hx htask =>
      cases x with
      | guard q k l =>
          cases htask
          obtain ⟨rule, hrule⟩ := guard_of_explore hexplore hx
          exact Setting.isFirst_of_findIdx? hrule
      | visit q =>
          cases htask
          trivial
      | finish => cases htask
      | report c => cases htask

/-- A jump uses the first recovery rule of the rule that failed, and goes on behind the place of the
failure, at a token or behind it. -/
structure Jump.Proper (s : Setting) (j : Jump) : Prop where
  isFirst : s.IsFirst j.recovery j.rule
  failed_lt : j.failed < j.resumed
  resumed_le : j.resumed ≤ s.stream.caret
  /-- There is a token behind the place of the failure. -/
  failed_succ_lt : j.failed + 1 < s.stream.caret

namespace Machine

variable {s : Setting} {m m' last : Machine} {js : List Jump}

/-- A jump from such a guard is proper. -/
theorem Fires.proper {p q : Position} {g : Guard} {r : RecoveryRule} (h : m.Fires s p g r q m')
    (hguards : ∀ t ∈ m.pending, t.GuardsFirst s) :
    Jump.Proper s ⟨g.recovery, r, p.index, q.index⟩ := by
  obtain ⟨r', hget, hfirst⟩ : ∃ r', s.IsFirst g.recovery r' :=
    hguards _ (List.mem_of_mem_head? h.guarded)
  cases h.rule_eq.symm.trans hget
  -- The jump goes on at the next token of its type, or behind it.
  obtain ⟨-, ⟨found, hfind, hindex⟩, -⟩ := Setting.resume_eq_some h.resume_eq
  obtain ⟨hlow, hhigh⟩ := TokenStream.findAfter?_eq_some hfind
  refine ⟨⟨hget, hfirst⟩, ?_, ?_, ?_⟩
  · show p.index < q.index
    rw [hindex]
    split <;> omega
  · show q.index ≤ s.stream.caret
    rw [hindex]
    split <;> omega
  · show p.index + 1 < s.stream.caret
    omega

/-- So are all the jumps of a run. -/
theorem Makes.proper (h : Makes s m js last) (hguards : ∀ t ∈ m.pending, t.GuardsFirst s) :
    ∀ j ∈ js, j.Proper s := by
  -- All guards on the stack are for first recovery rules, and a step sets no others.
  have hnext : ∀ {m m' : Machine}, (∀ t ∈ m.pending, t.GuardsFirst s) → Next s m m' →
      ∀ t ∈ m'.pending, t.GuardsFirst s := fun hm hstep =>
    Reaches.forall_pending (.single hstep) (fun _ _ _ => Task.GuardsFirst.of_spawns) hm
  induction h with
  | refl m => simp
  | quiet hstep _ _ ih => exact ih (hnext hguards hstep)
  | jump hfires _ ih =>
      intro j hj
      rcases List.mem_cons.mp hj with rfl | hj
      · exact hfires.proper hguards
      · exact ih (hnext hguards hfires.next) j hj

/-- What a machine has counted so far are the jumps of its run. -/
theorem Reaches.exists_jumps {rule : RuleIndex} {start : StateId}
    (h : Reaches s (.start rule start) m) :
    ∃ js, Makes s (.start rule start) js m ∧ (js.map Jump.key).Nodup ∧ (∀ j ∈ js, j.Proper s) ∧
      (∀ x, m.stats.attempts x = js.countP fun j => j.rule = x) ∧ m.stats.sum = js.length := by
  obtain ⟨js, hjs⟩ := h.exists_makes
  have hguards : ∀ t ∈ (Machine.start rule start).pending, t.GuardsFirst s := by
    intro t ht
    rw [List.mem_singleton.mp ht]
    trivial
  -- A machine starts with empty statistics, so they count the jumps of the run alone.
  have hattempts := hjs.attempts_eq
  have hsum := hjs.sum_eq
  simp only [Machine.start, RecoveryStats.empty, RecoveryStats.attempts, RecoveryStats.sum,
    List.find?_nil, List.map_nil, List.sum_nil, Option.map_none, Option.getD_none,
    Nat.zero_add] at hattempts hsum
  exact ⟨js, hjs, hjs.fresh.1, hjs.proper hguards, hattempts, hsum⟩

end Machine

/-! ### Traversals -/

/-- The rules that recovery rules are for, each once. -/
def Options.recoverable (options : Options) : List RuleIndex :=
  (options.recovery.map RecoveryRule.inRule).dedup

/-- Jumps that differ in what a machine remembers of them differ in the rule that failed or in the
place of the failure. So there are at most as many as there are such pairs. -/
theorem Jump.length_le_of_mem {s : Setting} {js : List Jump} (hnodup : (js.map Jump.key).Nodup)
    (hproper : ∀ j ∈ js, j.Proper s) {rules : List RuleIndex}
    (hrules : ∀ j ∈ js, j.rule.inRule ∈ rules) :
    js.length ≤ rules.length * (s.stream.caret - 1) := by
  have hinj : (js.map fun j => (j.rule.inRule, j.failed)).Nodup := by
    rw [List.nodup_map_iff_inj_on hnodup.of_map]
    intro j hj j' hj' heq
    obtain ⟨hrule, hfailed⟩ := Prod.mk.inj heq
    refine List.inj_on_of_nodup_map hnodup hj hj' (Prod.ext ?_ hfailed)
    -- The rule that failed determines the recovery rule that is used.
    have hfirst := (hproper j hj).isFirst.2
    rw [hrule, (hproper j' hj').isFirst.2] at hfirst
    exact (Option.some.inj hfirst).symm
  -- Failures with a token behind them are in front of the last token.
  have hsub : (js.map fun j => (j.rule.inRule, j.failed)) ⊆
      rules ×ˢ List.range (s.stream.caret - 1) := by
    intro x hx
    obtain ⟨j, hj, rfl⟩ := List.mem_map.mp hx
    have hlt := (hproper j hj).failed_succ_lt
    exact List.mem_product.mpr ⟨hrules j hj, List.mem_range.mpr (show j.failed < _ by omega)⟩
  have hle := hinj.length_le_of_subset hsub
  rw [List.length_map, List.length_product, List.length_range] at hle
  exact hle

/-- The rules that fail have recovery rules, so these can be counted. -/
theorem Jump.length_le {s : Setting} {js : List Jump} (hnodup : (js.map Jump.key).Nodup)
    (hproper : ∀ j ∈ js, j.Proper s) :
    js.length ≤ s.options.recoverable.length * (s.stream.caret - 1) := by
  refine length_le_of_mem hnodup hproper fun j hj => ?_
  rw [Options.recoverable, List.mem_dedup]
  exact List.mem_map_of_mem (List.mem_of_getElem? (hproper j hj).isFirst.1)

/-- The traversal of a rule makes these jumps, in this order. -/
def Traversal.Jumps (s : Setting) (rule : RuleIndex) (js : List Jump) : Prop :=
  match s.network.start? rule with
  | none => js = []
  | some start => ∃ last, Machine.Makes s (.start rule start) js last ∧ last.pending = []

namespace Traversal

variable {s : Setting} {rule : RuleIndex} {js : List Jump}

/-- A traversal has at most one list of jumps. -/
theorem Jumps.unique {js' : List Jump} (h : Jumps s rule js) (h' : Jumps s rule js') :
    js = js' := by
  rw [Jumps] at h h'
  cases hstart : s.network.start? rule with
  | none =>
      rw [hstart] at h h'
      exact h.trans h'.symm
  | some start =>
      rw [hstart] at h h'
      obtain ⟨last, hmakes, hdone⟩ := h
      obtain ⟨last', hmakes', hdone'⟩ := h'
      exact hmakes.unique hdone hmakes' hdone'

/-- A traversal that ends has jumps, and its statistics count them. -/
theorem exists_jumps {limit : Nat} {T : Traversal} (h : run s limit rule = .ok T) :
    ∃ js, Jumps s rule js ∧ (js.map Jump.key).Nodup ∧ (∀ j ∈ js, j.Proper s) ∧
      (∀ x, T.stats.attempts x = js.countP fun j => j.rule = x) ∧ T.stats.sum = js.length := by
  simp only [Jumps]
  cases hstart : s.network.start? rule with
  | none =>
      simp only [run, hstart, Except.ok.injEq] at h
      rw [← h]
      exact ⟨[], rfl, List.nodup_nil, by simp, fun _ => rfl, rfl⟩
  | some start =>
      obtain ⟨last, hrun, rfl⟩ := exists_run hstart h
      obtain ⟨hreaches, hdone⟩ := Machine.reaches_of_run hrun
      obtain ⟨js, hjs, hcounts⟩ := hreaches.exists_jumps
      exact ⟨js, ⟨last, hjs, hdone⟩, hcounts⟩

end Traversal

/-- A traversal that ends has made one list of jumps. It used no recovery rule twice at one place,
and of several recovery rules for a rule only the first. Every jump went on further along in the
tokens. The statistics count the jumps, and their total is right as long as it is an unsigned 64-bit
number. There are no more jumps than pairs of a rule with recovery rules and a token that is not the
last one, and so none without tokens. -/
theorem recovery_is_idempotent {n : Network} {w : List TokenType} {options : Options} {limit : Nat}
    {rule : RuleIndex} {T : Traversal} (h : traverse n ⟨w.toArray⟩ options limit rule = .ok T) :
    ∃ js, (∀ js', Traversal.Jumps (.ofOptions n ⟨w.toArray⟩ options limit) rule js' ↔ js' = js) ∧
      (js.map fun j => (j.recovery, j.failed)).Nodup ∧
      (∀ j ∈ js, options.recovery[j.recovery]? = some j.rule ∧
        options.recovery.findIdx? (·.inRule == j.rule.inRule) = some j.recovery ∧
        j.failed < j.resumed ∧ j.resumed ≤ w.length) ∧
      (∀ x, T.stats.attempts x = js.countP fun j => j.rule = x) ∧
      T.stats.total? = (if js.length < 2 ^ 64 then .ok js.length else .error .addition) ∧
      js.length ≤ options.recoverable.length * (w.length - 1) := by
  obtain ⟨js, hjs, hnodup, hproper, hattempts, hsum⟩ := Traversal.exists_jumps h
  refine ⟨js, fun js' => ⟨fun hjs' => hjs'.unique hjs, fun heq => heq ▸ hjs⟩, hnodup, ?_,
    hattempts, ?_, Jump.length_le hnodup hproper⟩
  · intro j hj
    obtain ⟨⟨hget, hfirst⟩, hforward, hle, -⟩ := hproper j hj
    exact ⟨hget, hfirst, hforward, hle⟩
  · rw [RecoveryStats.total?_eq, hsum]

/-- With two recovery rules for the block, the traversal of the tokens `x x z` ends, and has made
one jump, by the first of them. -/
theorem block_recovers_once :
    traverse blockNetwork ⟨#[2, 2, 4]⟩ ⟨[], [backToBlock, jumpToFix], none⟩ 100 0 =
      .ok ⟨[], false, RecoveryStats.empty.record backToBlock⟩ ∧
    ∃ j, Traversal.Jumps
        (.ofOptions blockNetwork ⟨#[2, 2, 4]⟩ ⟨[], [backToBlock, jumpToFix], none⟩ 100) 0 [j] ∧
      j.rule = backToBlock ∧ j.recovery = 0 ∧ j.failed < j.resumed ∧ j.resumed ≤ 3 := by
  have hends : traverse blockNetwork ⟨#[2, 2, 4]⟩ ⟨[], [backToBlock, jumpToFix], none⟩ 100 0 =
      .ok ⟨[], false, RecoveryStats.empty.record backToBlock⟩ := by
    cbv
  obtain ⟨js, hjs, -, hproper, hattempts, htotal, -⟩ :=
    recovery_is_idempotent (w := [2, 2, 4]) hends
  -- The total of the statistics is one, and it is the number of jumps.
  have hlength : js.length = 1 := by
    have hone : (RecoveryStats.empty.record backToBlock).total? = .ok 1 := rfl
    rw [hone] at htotal
    split at htotal
    · exact (Except.ok.inj htotal).symm
    · cases htotal
  obtain ⟨j, rfl⟩ := List.length_eq_one_iff.mp hlength
  have hcount : 1 = [j].countP fun j => j.rule = backToBlock := hattempts backToBlock
  have hrule : j.rule = backToBlock := by simpa using hcount.symm
  obtain ⟨-, hfirst, hforward, hle⟩ := hproper j List.mem_cons_self
  rw [hrule] at hfirst
  exact ⟨hends, j, (hjs [j]).mpr rfl, hrule, (Option.some.inj hfirst).symm, hforward, hle⟩

end Caret
