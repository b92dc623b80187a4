import Caret.Proofs.Ranges

/-!
# `Caret.Proofs.Guards`: what a guard judges

A guard compares the number of candidates with the number there was when it was set. This says
something about the call that it stands below only if nothing else is explored between the two.

The reason lies in the stack. A machine with its work on top of other work does its own work first,
step for step as it would alone (`Machine.Next.above`, `Machine.Next.of_above`). A guard is set by
the only edge of a state, with the entry of the called rule right above it (`explore_guards`). So
from there to the step that looks at the guard, a machine is one that explores the entry alone, on
top of the guard (`Machine.Reaches.exists_guarded`).

`guards_judge_their_calls` puts this together for the networks of accepted grammars, with the
conditions under which the guard makes a jump.
-/

set_option autoImplicit false

namespace Caret

/-! ### Work on top of other work -/

/-- The task, where so many more candidates were found before. -/
def Task.shift (k : Nat) : Task → Task
  | .explore p => .explore p
  | .watch p g => .watch p { g with found := k + g.found }

namespace Machine

variable {s : Setting} {m m' x x' : Machine} {found : Array Candidate} {rest : List Task}

/-- The machine with its work on top of other work, and other candidates in front of its own. -/
def above (x : Machine) (found : Array Candidate) (rest : List Task) : Machine :=
  { x with
    pending := x.pending.map (Task.shift found.size) ++ rest
    found := found ++ x.found }

/-- The machine with nothing found yet and one position to explore. What it has tried is kept. -/
def alone (m : Machine) (p : Position) : Machine :=
  { m with
    pending := [.explore p]
    found := #[] }

/-- An effect does the same on top of other work. The count in a guard grows by what was found
before. -/
theorem apply_above (x : Machine) (e : Effect) :
    (x.above found rest).apply e = (x.apply e).above found rest := by
  cases e with
  | finish => rfl
  | report c => simp [apply, above]
  | visit p => rfl
  | guard p recovery level => simp [apply, above, Task.shift]

/-- The same for effects one after the other. -/
theorem foldl_apply_above (effects : List Effect) (x : Machine) :
    effects.foldl apply (x.above found rest) = (effects.foldl apply x).above found rest := by
  induction effects generalizing x with
  | nil => rfl
  | cons e effects ih => rw [List.foldl_cons, List.foldl_cons, apply_above, ih]

/-- A guard judges by what was found since it was set, however much was found before. -/
theorem recover_above (x : Machine) (p : Position) (g : Guard) :
    recover s (x.above found rest) p { g with found := found.size + g.found } =
      (recover s x p g).map (above · found rest) := by
  -- The guard is dropped on both sides, or on none.
  have hsame {y z : Except Halt Machine} (hyz : y = z.map (above · found rest)) {c : Prop}
      [Decidable c] : (if c then .ok (x.above found rest) else y) =
        (if c then .ok x else z).map (above · found rest) := by
    split
    · rfl
    · exact hyz
  -- Both counts are higher by the same number.
  have hfound : (x.above found rest).found.size ≠ found.size + g.found ↔
      x.found.size ≠ g.found := by
    rw [above, Array.size_append]
    omega
  rw [recover, recover, if_congr hfound rfl rfl]
  refine hsame ?_
  cases s.options.recovery[g.recovery]? with
  | none => rfl
  | some r =>
      refine hsame (c := (!r.nested && 0 < p.recoveries || (g.recovery, p.index) ∈ x.tried) = true)
        ?_
      -- Where the exploration resumes does not depend on what was found.
      have hresume : s.resume p { g with found := found.size + g.found } r = s.resume p g r := rfl
      rw [hresume]
      cases s.resume p g r with
      | error cause => rfl
      | ok next? => cases next? <;> rfl

/-- A machine with its work on top of other work does its own work first. -/
theorem step_above (hmore : x.pending ≠ []) :
    step s (x.above found rest) = (step s x).map (above · found rest) := by
  -- The first task is an own one, so both machines do the same and differ in what lies below.
  obtain ⟨pending, ownFound, reachedEnd, stats, tried⟩ := x
  cases pending with
  | nil => exact absurd rfl hmore
  | cons t tasks =>
      cases t with
      | explore p =>
          simp only [step, above, List.map_cons, Task.shift, List.cons_append]
          cases s.explore p with
          | error halt => rfl
          | ok effects =>
              exact congrArg Except.ok
                (foldl_apply_above effects ⟨tasks, ownFound, reachedEnd, stats, tried⟩)
      | watch p g => exact recover_above ⟨tasks, ownFound, reachedEnd, stats, tried⟩ p g

/-- A step of its own is a step on top of other work. -/
theorem Next.above (h : Next s x x') : Next s (x.above found rest) (x'.above found rest) := by
  constructor
  · simp [Machine.above, h.1]
  · rw [step_above h.1, h.2]
    rfl

/-- So is any number of steps. -/
theorem Reaches.above (h : Reaches s x x') :
    Reaches s (x.above found rest) (x'.above found rest) :=
  Relation.ReflTransGen.lift (Machine.above · found rest) (fun _ _ hnext => Next.above hnext) _ _ h

/-- As long as a machine has own work, a step on top of other work is a step of its own. -/
theorem Next.of_above (hmore : x.pending ≠ []) (h : Next s (x.above found rest) m') :
    ∃ x', Next s x x' ∧ m' = x'.above found rest := by
  have hstep := h.2
  rw [step_above hmore] at hstep
  cases hown : step s x with
  | error halt =>
      rw [hown] at hstep
      cases hstep
  | ok x' =>
      rw [hown] at hstep
      exact ⟨x', ⟨hmore, hown⟩, (Except.ok.inj hstep).symm⟩

end Machine

/-! ### Setting a guard -/

/-- A position that sets a guard is at a state with one edge, a call of the rule that the guard is
for. It sets the guard behind the call, enters the rule, and does nothing else. -/
theorem explore_guards {s : Setting} (ht : s.network.Tidy) {p q : Position} {effects : List Effect}
    (h : s.explore p = .ok effects) {k : Nat} {level : Int} (hmem : .guard q k level ∈ effects) :
    ∃ state target rule follow, s.network.state? p.state = some state ∧
      state.edges = [.call target rule follow level] ∧ q = p.enter follow ∧
      s.options.recovery.findIdx? (·.inRule == rule) = some k ∧
      effects = [.guard q k level, .visit (p.call target ⟨rule, some follow, level⟩)] := by
  rcases exists_departs_of_mem h hmem with
    ⟨hfinish, -⟩ | ⟨e, p', leaving, here, hdeparts, hhere, hx⟩
  · cases hfinish
  · rcases effect_of_follow hhere hx with ⟨-, -, -, hvisit⟩ |
        ⟨target, rule, follow, l, rfl, hnew, hcall⟩ | ⟨t, label, -, hread⟩
    · cases hvisit
    · cases hdeparts with
      | leaving hstate hkind _ he _ =>
          -- A stop state makes no calls.
          obtain ⟨t, ht', -⟩ := ht.stop_edges _ _ hstate hkind _ he
          cases ht'
      | @inside state _ hstate hkind he =>
          have hedges := ht.call_alone _ _ hstate _ he rfl
          obtain ⟨hfirst, hentered⟩ := guard_of_call hcall hx
          -- The call is the only edge, so its effects are all effects.
          have heffects : effects = here := by
            rw [explore_inside hstate hkind, hedges] at h
            obtain ⟨later, here', hlater, hhere', rfl⟩ := exists_of_followAll_cons h
            cases hlater
            exact Except.ok.inj (hhere'.symm.trans hhere)
          rw [hentered] at hx
          simp only [List.mem_cons, Effect.guard.injEq, List.not_mem_nil, reduceCtorEq, or_false]
            at hx
          obtain ⟨rfl, -, rfl⟩ := hx
          exact ⟨state, target, rule, follow, hstate, hedges, rfl, hfirst, heffects.trans hentered⟩
    · rcases effect_of_read hread hx with ⟨c, hc⟩ | ⟨t, -, hvisit⟩
      · cases hc
      · cases hvisit

namespace Machine

variable {s : Setting} {first m m' before pushed own : Machine} {p entry : Position} {g : Guard}
  {rest tasks : List Task}

/-- The machine calls a rule that has a recovery rule. It puts the guard on the stack, with what was
found by then, and right above it the entry of the rule. -/
structure Guards (s : Setting) (m : Machine) (p : Position) (g : Guard) (entry : Position)
    (m' : Machine) : Prop where
  next : Next s m m'
  /-- The position is at a state with one edge, and the guard is for the rule that it calls. -/
  called : ∃ q state target rule follow, m.pending.head? = some (.explore q) ∧
    s.network.state? q.state = some state ∧ state.edges = [.call target rule follow g.level] ∧
    p = q.enter follow ∧ entry = q.call target ⟨rule, some follow, g.level⟩ ∧
    s.options.recovery.findIdx? (·.inRule == rule) = some g.recovery
  found_eq : g.found = m.found.size
  pushed_eq : m' = m.withPending (.explore entry :: .watch p g :: m.pending.tail)

/-- A step sets one guard for a call, or it puts no guards on the stack. -/
theorem Next.guards_or (ht : s.network.Tidy) (h : Next s m m') :
    (∃ p g entry, m.Guards s p g entry m') ∨
      ∃ t rest, ∃ ps : List Position, m.pending = t :: rest ∧
        m'.pending = ps.map .explore ++ rest := by
  -- Guards are set only by exploring. Looking at a guard drops it or puts one position there.
  cases h.advance with
  | @explore q rest effects hpending hexplore =>
      by_cases hguards : ∃ p k level, .guard p k level ∈ effects
      · obtain ⟨p, k, level, hmem⟩ := hguards
        obtain ⟨state, target, rule, follow, hstate, hedges, hp, hfirst, heffects⟩ :=
          explore_guards ht hexplore hmem
        refine Or.inl ⟨p, ⟨k, m.found.size, level⟩, q.call target ⟨rule, some follow, level⟩, h, ?_,
          rfl, ?_⟩
        · exact ⟨q, state, target, rule, follow, by rw [hpending]; rfl, hstate, hedges, hp, rfl,
            hfirst⟩
        · rw [heffects, hpending]
          rfl
      · have hnone : ∀ e ∈ effects, e.isGuard = false := by
          intro e he
          cases e with
          | guard p k level => exact absurd ⟨p, k, level, he⟩ hguards
          | _ => rfl
        exact Or.inr ⟨_, rest, visits effects, hpending, by rw [foldl_apply effects hnone]; rfl⟩
  | drop hpending _ => exact Or.inr ⟨_, _, [], hpending, rfl⟩
  | @jump p q g rest r hpending _ _ _ _ _ => exact Or.inr ⟨_, rest, [q], hpending, rfl⟩

/-- A guard that is on the stack after a step was set by the step, or it was there before, below the
task that was done. -/
theorem Next.split (ht : s.network.Tidy) (h : Next s m m')
    (hpending : m'.pending = tasks ++ .watch p g :: rest) :
    (∃ entry, m.Guards s p g entry m' ∧ m.pending.tail = rest) ∨
      ∃ t kept, m.pending = t :: kept ++ .watch p g :: rest := by
  rcases h.guards_or ht with ⟨p', g', entry, hguards⟩ | ⟨t, below, ps, hbefore, hafter⟩
  · have hstack := hguards.pushed_eq ▸ hpending
    -- Above the new guard there is one task only, which is no guard.
    match tasks, hstack with
    | [], hstack => cases hstack
    | [_], hstack =>
        cases hstack
        exact Or.inl ⟨entry, hguards, rfl⟩
    | _ :: _ :: kept, hstack =>
        obtain ⟨-, -, htail⟩ : _ ∧ _ ∧ m.pending.tail = kept ++ .watch p g :: rest := by
          simpa [withPending] using hstack
        obtain ⟨t, below, hbefore⟩ := List.exists_cons_of_ne_nil h.1
        rw [hbefore, List.tail_cons] at htail
        exact Or.inr ⟨t, kept, by rw [hbefore, htail, List.cons_append]⟩
  · rw [hafter] at hpending
    rcases List.append_eq_append_iff.mp hpending with ⟨kept, -, hbelow⟩ | ⟨extra, hps, hbelow⟩
    · exact Or.inr ⟨t, kept, by rw [hbefore, hbelow, List.cons_append]⟩
    · cases extra with
      | nil => exact Or.inr ⟨t, [], by rw [hbefore, hbelow]; rfl⟩
      | cons t' extra =>
          -- The guard would be one of the new tasks, and these are positions.
          obtain ⟨rfl, -⟩ := List.cons.inj hbelow
          have hmem : Task.watch p g ∈ ps.map .explore := by
            rw [hps]
            exact List.mem_append_right _ List.mem_cons_self
          obtain ⟨q, -, hq⟩ := List.mem_map.mp hmem
          cases hq

/-! ### From the call to its guard -/

/-- The guard was set on the way from the first machine, with the rest of the stack below it. Since
then the machine has explored the entry of the call and what came of it, as it would alone. -/
structure Guarded (s : Setting) (first m : Machine) (p : Position) (g : Guard) (rest : List Task)
    (before pushed : Machine) (entry : Position) (own : Machine) : Prop where
  reaches : Reaches s first before
  guards : before.Guards s p g entry pushed
  tail_eq : before.pending.tail = rest
  explored : Reaches s (pushed.alone entry) own
  eq_above : m = own.above pushed.found (.watch p g :: rest)

/-- When the guard is set, the entry of the call is still to be explored. -/
theorem Guards.eq_above (h : m.Guards s p g entry m') :
    m' = (m'.alone entry).above m'.found (.watch p g :: m.pending.tail) := by
  rw [h.pushed_eq]
  simp [alone, above, withPending, Task.shift]

/-- The machine that has set the guard comes to the present one. -/
theorem Guarded.reaches_pushed (h : Guarded s first m p g rest before pushed entry own) :
    Reaches s pushed m := by
  have hreaches : Reaches s ((pushed.alone entry).above pushed.found (.watch p g :: rest))
      (own.above pushed.found (.watch p g :: rest)) := h.explored.above
  rw [← h.eq_above, ← h.tail_eq, ← h.guards.eq_above] at hreaches
  exact hreaches

/-- As long as there is work above the guard, the next step is a step of the exploration alone. -/
theorem Guarded.next (h : Guarded s first m p g rest before pushed entry own)
    (hmore : m.pending = tasks ++ .watch p g :: rest) (htasks : tasks ≠ []) (hnext : Next s m m') :
    ∃ own', Guarded s first m' p g rest before pushed entry own' := by
  -- What is above the guard is the own work of the exploration.
  have hown : own.pending ≠ [] := by
    rw [h.eq_above] at hmore
    have hmap : own.pending.map (Task.shift pushed.found.size) = tasks :=
      List.append_cancel_right hmore
    intro hnil
    rw [hnil] at hmap
    exact htasks hmap.symm
  rw [h.eq_above] at hnext
  obtain ⟨own', hstep, hafter⟩ := hnext.of_above hown
  exact ⟨own', h.reaches, h.guards, h.tail_eq, h.explored.tail hstep, hafter⟩

/-- Every guard on the stack has such a past. -/
theorem Reaches.exists_guarded (ht : s.network.Tidy) (hfirst : ∀ p g, .watch p g ∉ first.pending)
    (h : Reaches s first m) (hpending : m.pending = tasks ++ .watch p g :: rest) :
    ∃ before pushed entry own, Guarded s first m p g rest before pushed entry own := by
  induction h generalizing tasks with
  | refl =>
      refine absurd ?_ (hfirst p g)
      rw [hpending]
      exact List.mem_append_right _ List.mem_cons_self
  | @tail m m' hm hnext ih =>
      -- The step has set the guard, or it was on the stack before with something above it.
      rcases hnext.split ht hpending with ⟨entry, hguards, htail⟩ | ⟨t, kept, hbefore⟩
      · exact ⟨m, m', entry, m'.alone entry, hm, hguards, htail, .refl, htail ▸ hguards.eq_above⟩
      · obtain ⟨before, pushed, entry, own, hguarded⟩ := ih hbefore
        obtain ⟨own', hguarded'⟩ := hguarded.next hbefore (List.cons_ne_nil t kept) hnext
        exact ⟨before, pushed, entry, own', hguarded'⟩

/-- When a machine looks at the guard, the exploration of the call is done. -/
theorem Guarded.done (h : Guarded s first m p g rest before pushed entry own)
    (hpending : m.pending = .watch p g :: rest) :
    own.pending = [] ∧ m.found = pushed.found ++ own.found ∧ g.found = pushed.found.size := by
  have heq := h.eq_above
  refine ⟨?_, congrArg Machine.found heq, ?_⟩
  · rw [heq] at hpending
    have hmap : own.pending.map (Task.shift pushed.found.size) = [] :=
      List.append_left_eq_self.mp hpending
    exact List.map_eq_nil_iff.mp hmap
  · rw [h.guards.found_eq, h.guards.pushed_eq]
    rfl

end Machine

/-! ### Jumps -/

/-- A search for a token type that does not leave the range of numbers finds it if it stands further
on. -/
theorem TokenStream.findAfter?_isSome {stream : TokenStream} {t : TokenType} {index : Nat}
    {found? : Option Nat} (h : stream.findAfter? t index = .ok found?) :
    found?.isSome = true ↔ ∃ i, index < i ∧ stream.tokens[i]? = some t := by
  rw [findAfter?, natAdd] at h
  split at h
  · rw [← Except.ok.inj h, Option.isSome_map, List.findIdx?_isSome, List.any_eq_true]
    constructor
    · rintro ⟨t', hmem, htype⟩
      obtain ⟨i, hi⟩ := List.mem_iff_getElem?.mp hmem
      rw [List.getElem?_drop, Array.getElem?_toList] at hi
      exact ⟨index + 1 + i, by omega, beq_iff_eq.mp htype ▸ hi⟩
    · rintro ⟨i, hi, htype⟩
      refine ⟨t, List.mem_iff_getElem?.mpr ⟨i - (index + 1), ?_⟩, beq_self_eq_true t⟩
      rw [List.getElem?_drop, Array.getElem?_toList, Nat.add_sub_cancel' hi]
      exact htype
  · cases h

/-- The token of the recovery rule stands further on, and its target exists. -/
@[mk_iff applies_iff]
structure RecoveryRule.Applies (s : Setting) (r : RecoveryRule) (index : Nat) : Prop where
  token : ∃ i, index < i ∧ s.stream.tokens[i]? = some r.token
  target : r.target = .finishRule ∨
    ∃ rule start, r.target = .goToRule rule ∧ s.network.start? rule = some start

/-- A recovery rule has a position to go on from just if it applies: in front of a token there is
room for one more recovery. -/
theorem Setting.exists_resume_iff {s : Setting} {p : Position}
    (hrecoveries : p.recoveries ≤ p.index) (hcaret : s.stream.caret < 2 ^ 32) (g : Guard)
    (r : RecoveryRule) : (∃ q, s.resume p g r = .ok (some q)) ↔ r.Applies s p.index := by
  constructor
  · rintro ⟨q, hq⟩
    obtain ⟨-, ⟨found, hfound, -⟩, htarget⟩ := Setting.resume_eq_some hq
    refine ⟨(TokenStream.findAfter?_isSome hfound).mp rfl, ?_⟩
    cases hr : r.target with
    | finishRule => exact Or.inl rfl
    | goToRule rule => exact Or.inr ⟨rule, q.state, rfl, (htarget rule hr).1⟩
  · rintro ⟨⟨i, hi, htoken⟩, htarget⟩
    have hlt : i < s.stream.caret := (Array.getElem?_eq_some_iff.mp htoken).1
    -- Numbers in front of the caret can be counted up.
    have hcount : natAdd nat32Max p.recoveries 1 = .ok (p.recoveries + 1) :=
      if_pos (by rw [nat32Max]; omega)
    have hnext : natAdd nat64Max p.index 1 = .ok (p.index + 1) := if_pos (by rw [nat64Max]; omega)
    obtain ⟨found?, hfind⟩ : ∃ found?, s.stream.findAfter? r.token p.index = .ok found? :=
      ⟨_, by rw [TokenStream.findAfter?, hnext]; rfl⟩
    -- The token stands further on, so the search finds it.
    obtain ⟨found, rfl⟩ :=
      Option.isSome_iff_exists.mp ((TokenStream.findAfter?_isSome hfind).mpr ⟨i, hi, htoken⟩)
    rcases htarget with htarget | ⟨rule, start, htarget, hstart⟩
    · simp only [resume, hfind, bind, Except.bind, pure, Except.pure, htarget, hcount]
      exact ⟨_, rfl⟩
    · simp only [resume, hfind, bind, Except.bind, pure, Except.pure, htarget, hstart, hcount]
      exact ⟨_, rfl⟩

namespace Machine

variable {s : Setting} {m : Machine} {p : Position} {g : Guard} {rest : List Task}

/-- A guard makes a jump if nothing was found since it was set, its recovery rule may be used here
and was not tried before, and there is a position to go on from. -/
theorem exists_fires_iff (hpending : m.pending = .watch p g :: rest) {r : RecoveryRule}
    (hr : s.options.recovery[g.recovery]? = some r) :
    (∃ q m', m.Fires s p g r q m') ↔
      m.found.size = g.found ∧ (r.nested = true ∨ p.recoveries = 0) ∧
        (g.recovery, p.index) ∉ m.tried ∧ ∃ q, s.resume p g r = .ok (some q) := by
  constructor
  · rintro ⟨q, m', hfires⟩
    have hresumed := hfires.resumed
    cases hfires.next.advance with
    | explore hpending' _ => cases hpending.symm.trans hpending'
    | drop hpending' _ =>
        rw [hpending'] at hresumed
        exact absurd hresumed.symm (List.cons_ne_self _ _)
    | jump hpending' hr' hfound hallowed hnew hresume =>
        cases hpending.symm.trans hpending'
        cases hr.symm.trans hr'
        exact ⟨hfound, hallowed, hnew, _, hresume⟩
  · rintro ⟨hfound, hallowed, hnew, q, hresume⟩
    -- The conditions are those that the machine tests, in its own order.
    have hskip : ¬ ((!r.nested && 0 < p.recoveries) || (g.recovery, p.index) ∈ m.tried) = true := by
      rcases hallowed with hnested | hnone
      · simp [hnested, hnew]
      · simp [hnone, hnew]
    obtain ⟨pending, found, reachedEnd, stats, tried⟩ := m
    cases hpending
    refine ⟨q, ⟨.explore q :: rest, found, reachedEnd, stats.record r,
      (g.recovery, p.index) :: tried⟩, rfl, hr, ?_, rfl⟩
    simp only [step, recover, if_neg (not_not.mpr hfound), hr, if_neg hskip, hresume]

end Machine

/-- When a machine looks at a guard, the guard was set by the only edge of a state, a call of the
rule that it is for, and right above it the entry of that call was put on the stack. What was found
since then is what a machine finds that explores this entry, and what comes of it, alone. So a jump
is made just if that exploration finds nothing, the recovery rule may be used within a recovery or
there was none on the way, it was not tried at this place before, its token stands further on, and
its target is the caller or a rule that exists. -/
theorem guards_judge_their_calls {source : Source} {grammar : Grammar}
    (h : source.build = .ok grammar) (hsize : source.numbering.size < 2 ^ 31 - 2)
    (hoperators : ∀ r ∈ source.rules, r.body.operatorCount < 2 ^ 31 - 2) {s : Setting}
    (hs : s.network = grammar.recognizer.network) (hcaret : s.stream.caret < 2 ^ 32)
    {first : RuleIndex} {start : StateId} {m : Machine}
    (hm : Machine.Reaches s (.start first start) m) {p : Position} {g : Guard} {rest : List Task}
    (hpending : m.pending = .watch p g :: rest) :
    ∃ before pushed entry last r, Machine.Reaches s (.start first start) before ∧
      before.Guards s p g entry pushed ∧ before.pending.tail = rest ∧ Machine.Reaches s pushed m ∧
      Machine.Reaches s (pushed.alone entry) last ∧ last.pending = [] ∧
      m.found = pushed.found ++ last.found ∧ s.options.recovery[g.recovery]? = some r ∧
      ((∃ q next, m.Fires s p g r q next) ↔
        last.found = #[] ∧ (r.nested = true ∨ p.recoveries = 0) ∧
        (g.recovery, p.index) ∉ m.tried ∧
        (∃ i, p.index < i ∧ s.stream.tokens[i]? = some r.token) ∧
        (r.target = .finishRule ∨
          ∃ rule, r.target = .goToRule rule ∧ rule < source.rules.length)) := by
  have ht : s.network.Tidy := hs ▸ (Source.realizes_of_build h hsize).tidy
  have hnone : ∀ p g, .watch p g ∉ (Machine.start first start).pending := by
    intro p g hmem
    cases List.mem_singleton.mp hmem
  obtain ⟨before, pushed, entry, last, hguarded⟩ :=
    hm.exists_guarded ht hnone (show m.pending = [] ++ .watch p g :: rest from hpending)
  obtain ⟨hdone, hfound, hcount⟩ := hguarded.done hpending
  obtain ⟨-, -, -, rule, -, -, -, -, -, -, hfirst⟩ := hguarded.guards.called
  obtain ⟨r, hr, -⟩ := Setting.isFirst_of_findIdx? hfirst
  refine ⟨before, pushed, entry, last, r, hguarded.reaches, hguarded.guards, hguarded.tail_eq,
    hguarded.reaches_pushed, hguarded.explored, hdone, hfound, hr, ?_⟩
  -- The count of the guard is the one from before the exploration of its call.
  have hnothing : m.found.size = g.found ↔ last.found = #[] := by
    rw [hfound, hcount, Array.size_append, ← Array.size_eq_zero_iff]
    omega
  -- On every way there are no more recoveries than tokens read.
  have hlevels : s.network.LevelsWithin int32Max :=
    hs ▸ Source.levelsWithin_of_build h hsize hoperators
  have hrecoveries : p.recoveries ≤ p.index :=
    (hm.bounded hlevels (by decide) (.watch p g) (hpending ▸ List.mem_cons_self)).1.recoveries_le
  have hrules : ∀ rule, (∃ start, s.network.start? rule = some start) ↔
      rule < source.rules.length := by
    intro rule
    rw [hs, ← Option.isSome_iff_exists, Source.start?_isSome_iff h hsize]
  rw [Machine.exists_fires_iff hpending hr, hnothing, Setting.exists_resume_iff hrecoveries hcaret,
    RecoveryRule.applies_iff]
  simp only [hrules, exists_and_left]

/-- In `x x y` the block fails at its second token, and the guard of the block makes a jump. So the
machine that explores the block alone finds nothing. -/
theorem failed_block_is_judged : ∃ grammar, blockGrammar.build = .ok grammar ∧
    blockGrammar.numbering.size < 2 ^ 31 - 2 ∧
    (∀ r ∈ blockGrammar.rules, r.body.operatorCount < 2 ^ 31 - 2) ∧
    (blockSetting backToBlock [2, 2, 3]).network = grammar.recognizer.network ∧
    (blockSetting backToBlock [2, 2, 3]).stream.caret < 2 ^ 32 ∧
    Machine.Reaches (blockSetting backToBlock [2, 2, 3]) (.start 0 0) failedBlock ∧
    failedBlock.pending = .watch behindBlock ⟨0, 0, 0⟩ :: otherThanBlock ∧
    ∃ (before pushed : Machine) (entry : Position) (last : Machine),
      before.Guards (blockSetting backToBlock [2, 2, 3]) behindBlock ⟨0, 0, 0⟩ entry pushed ∧
      Machine.Reaches (blockSetting backToBlock [2, 2, 3]) (pushed.alone entry) last ∧
      last.pending = [] ∧ last.found = #[] ∧
      ∃ q next, failedBlock.Fires (blockSetting backToBlock [2, 2, 3]) behindBlock ⟨0, 0, 0⟩
        backToBlock q next := by
  obtain ⟨grammar, hbuild, hnetwork⟩ := exists_build_blockGrammar
  have hsize : blockGrammar.numbering.size < 2 ^ 31 - 2 := by decide
  have hoperators : ∀ r ∈ blockGrammar.rules, r.body.operatorCount < 2 ^ 31 - 2 := by decide
  have hcaret : (blockSetting backToBlock [2, 2, 3]).stream.caret < 2 ^ 32 := by decide
  obtain ⟨hfailed, hrecovers⟩ :
      Machine.RunsTo (blockSetting backToBlock [2, 2, 3]) 5 (.start 0 0) failedBlock ∧
      Machine.step (blockSetting backToBlock [2, 2, 3]) failedBlock =
        .ok (recoveredBlock backToBlock (inPlaceOfBlock 1 2 1 [])) := by
    cbv
  have hfires : failedBlock.Fires (blockSetting backToBlock [2, 2, 3]) behindBlock ⟨0, 0, 0⟩
      backToBlock (inPlaceOfBlock 1 2 1 [])
      (recoveredBlock backToBlock (inPlaceOfBlock 1 2 1 [])) :=
    ⟨rfl, rfl, hrecovers, rfl⟩
  obtain ⟨before, pushed, entry, last, r, -, hguards, -, -, halone, hdone, -, hr, hjump⟩ :=
    guards_judge_their_calls hbuild hsize hoperators hnetwork hcaret hfailed.reaches rfl
  cases hfires.rule_eq.symm.trans hr
  exact ⟨grammar, hbuild, hsize, hoperators, hnetwork, hcaret, hfailed.reaches, rfl, before, pushed,
    entry, last, hguards, halone, hdone, (hjump.mp ⟨_, _, hfires⟩).1, _, _, hfires⟩

end Caret
