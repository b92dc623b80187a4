import Caret.Proofs.FirstTokens
import Caret.Proofs.Runs
import Caret.Proofs.Suggestions

/-!
# `Caret.Proofs.Termination`: traversals of accepted grammars come to an end

`Terminates s t` is evidence that doing the task `t`, and all the work that it leaves, comes to an
end without a number leaving its range. A machine whose tasks terminate halts
(`Terminates.halting`), whatever it has found and tried before.

`Safe s w a calls v` says that exploring from the state `a` terminates with the tokens `v` of `w`
still to be read, whatever states were passed before. Refusing to enter a state again only leaves
work out. `Grounded.protects` shows by induction on the evidence for a grammar that the piece of a
phrase is safe if what comes behind it is safe: in front of the same tokens if the phrase is
nullable, and in front of fewer tokens in any case. A recovery goes on behind at least one more
token, in a rule or behind a call, so it is safe too.
-/

set_option autoImplicit false

namespace Caret

/-! ### Tasks -/

/-- Doing the task, and all the work that it leaves, comes to an end. A guard may or may not make
use of its recovery rule. -/
inductive Terminates (s : Setting) : Task → Prop where
  | explore {p : Position} {effects : List Effect} : s.explore p = .ok effects →
      (∀ e ∈ effects, ∀ found t, e.task? found = some t → Terminates s t) →
        Terminates s (.explore p)
  | watch {p : Position} {g : Guard} :
      (∀ r ∈ s.options.recovery, ∃ next, s.resume p g r = .ok next) →
        (∀ r ∈ s.options.recovery, ∀ next, s.resume p g r = .ok (some next) →
          Terminates s (.explore next)) → Terminates s (.watch p g)

/-- A machine with these tasks to do comes to an end, whatever it has found before. -/
def Halting (s : Setting) (tasks : List Task) : Prop :=
  ∀ m : Machine, m.pending = tasks → ∃ last, Ends (fun limit => Machine.run s limit m) last

namespace Machine

variable {s : Setting} {m : Machine}

/-- A guard leaves at most one position to explore, which its recovery rule leads to. -/
theorem recover_spec {p : Position} {g : Guard}
    (hok : ∀ r ∈ s.options.recovery, ∃ next, s.resume p g r = .ok next) :
    ∃ next, recover s m p g = .ok next ∧ (next.pending = m.pending ∨
      ∃ r ∈ s.options.recovery, ∃ q, s.resume p g r = .ok (some q) ∧
        next.pending = .explore q :: m.pending) := by
  rw [recover]
  split
  · exact ⟨m, rfl, Or.inl rfl⟩
  · split
    · exact ⟨m, rfl, Or.inl rfl⟩
    · rename_i r hr
      have hmem := List.mem_of_getElem? hr
      split
      · exact ⟨m, rfl, Or.inl rfl⟩
      · obtain ⟨next, hnext⟩ := hok r hmem
        simp only [hnext]
        cases next with
        | none => exact ⟨_, rfl, Or.inl rfl⟩
        | some q => exact ⟨_, rfl, Or.inr ⟨r, hmem, q, hnext, rfl⟩⟩

end Machine

section

variable {s : Setting}

/-- With nothing left to do a machine has ended. -/
theorem halting_nil (s : Setting) : Halting s [] := by
  intro m hm
  exact ⟨m, 0, fun limit _ => Machine.run_done hm⟩

/-- Tasks may be put on a stack that comes to an end if each of them may. -/
theorem Halting.append {tasks rest : List Task}
    (htasks : ∀ t ∈ tasks, ∀ rest, Halting s rest → Halting s (t :: rest))
    (hrest : Halting s rest) : Halting s (tasks ++ rest) := by
  induction tasks with
  | nil => exact hrest
  | cons t tasks ih =>
      have htail := ih fun t' ht' => htasks t' (List.mem_cons_of_mem _ ht')
      exact htasks t List.mem_cons_self _ htail

/-- A machine comes to an end if the task on top of its stack terminates and it comes to an end with
the rest. -/
theorem Terminates.halting {t : Task} (h : Terminates s t) :
    ∀ rest, Halting s rest → Halting s (t :: rest) := by
  -- Induction on the evidence. What a task leaves is covered by it, and the rest of the stack halts
  -- by assumption.
  induction h with
  | @explore p effects hexplore _ ih =>
      rintro rest hrest ⟨pending, found, reachedEnd, stats, tried⟩ hpending
      cases hpending
      have hstep : Machine.step s ⟨.explore p :: rest, found, reachedEnd, stats, tried⟩ =
          .ok (effects.foldl Machine.apply ⟨rest, found, reachedEnd, stats, tried⟩) := by
        simp only [Machine.step, hexplore]
      obtain ⟨tasks, hpending, htasks⟩ :=
        Machine.pending_foldl_apply effects ⟨rest, found, reachedEnd, stats, tried⟩
      have hhalting : Halting s (tasks ++ rest) := by
        refine .append ?_ hrest
        intro t ht
        obtain ⟨e, he, found', htask⟩ := htasks t ht
        exact ih e he found' t htask
      obtain ⟨last, hlast⟩ := hhalting _ hpending
      exact ⟨last, Machine.ends_of_step (by simp) hstep hlast⟩
  | @watch p g hok _ ih =>
      rintro rest hrest ⟨pending, found, reachedEnd, stats, tried⟩ hpending
      cases hpending
      obtain ⟨next, hnext, hcases⟩ :=
        Machine.recover_spec (m := ⟨rest, found, reachedEnd, stats, tried⟩) hok
      have hstep : Machine.step s ⟨.watch p g :: rest, found, reachedEnd, stats, tried⟩ =
          .ok next := hnext
      have hhalts : ∃ last, Ends (fun limit => Machine.run s limit next) last := by
        rcases hcases with hsame | ⟨r, hr, q, hq, hmore⟩
        · exact hrest next hsame
        · exact ih r hr q hq rest hrest next hmore
      obtain ⟨last, hlast⟩ := hhalts
      exact ⟨last, Machine.ends_of_step (by simp) hstep hlast⟩

end

/-! ### Positions -/

/-- The position is at the state, below the calls, with the tokens `v` of `w` still to be read.
Every recovery on the way has passed over a token. -/
structure Position.At (w v : List TokenType) (a : Nat) (calls : List Call) (p : Position) :
    Prop where
  state_eq : p.state = a
  calls_eq : p.calls = calls
  index_eq : p.index = w.length - v.length
  recoveries_le : p.recoveries ≤ p.index

/-- Exploring from the state terminates, whatever states were passed before. -/
def Safe (s : Setting) (w : List TokenType) (a : Nat) (calls : List Call) (v : List TokenType) :
    Prop :=
  ∀ p : Position, p.At w v a calls → Terminates s (.explore p)

namespace Position.At

variable {w v : List TokenType} {a : Nat} {calls : List Call} {p : Position}

/-- Moving to another state and forgetting what was passed. -/
theorem enter (hp : p.At w v a calls) (b : Nat) : (p.enter b).At w v b calls :=
  ⟨rfl, hp.calls_eq, hp.index_eq, hp.recoveries_le⟩

/-- Moving to another state within a rule. -/
theorem pass (hp : p.At w v a calls) (b : Nat) : (p.pass b).At w v b calls :=
  ⟨rfl, hp.calls_eq, hp.index_eq, hp.recoveries_le⟩

/-- Entering a rule. -/
theorem call (hp : p.At w v a calls) (start : Nat) (c : Call) :
    (p.call start c).At w v start (c :: calls) :=
  ⟨rfl, congrArg (c :: ·) hp.calls_eq, hp.index_eq, hp.recoveries_le⟩

/-- Reading a token. What was counted as a recovery still is at most the number of tokens read. -/
theorem advance {t : TokenType} (hp : p.At w (t :: v) a calls) (hv : t :: v <:+ w) (b : Nat) :
    (p.advance b).At w v b calls := by
  have hle := hv.length_le
  have hindex := hp.index_eq
  have hrecoveries := hp.recoveries_le
  rw [List.length_cons] at hle hindex
  refine ⟨rfl, hp.calls_eq, ?_, ?_⟩
  · show p.index + 1 = _
    omega
  · show p.recoveries ≤ p.index + 1
    omega

end Position.At

/-- What is needed to see that explorations end: the tokens can be counted, and a rule is passed
only if it is nullable. -/
structure Setting.Bounded (s : Setting) (rules : List (Rule Label RuleIndex))
    (w : List TokenType) : Prop where
  stream_eq : s.stream = ⟨w.toArray⟩
  length_lt : w.length < 2 ^ 32
  nullable_ok : ∀ r, ∃ b, s.nullable r = .ok b
  nullable_of_passes : ∀ r, s.Passes r → knownNullable rules r = true

/-! ### One state -/

section

variable {s : Setting} {p : Position}

/-- Edges can be followed if each of them can, and what holds of all effects of each holds of all
effects. -/
theorem followAll_ok {leaving : Bool} {edges : List Edge} {P : Effect → Prop}
    (h : ∀ e ∈ edges, ∃ effects, s.follow p leaving e = .ok effects ∧ ∀ x ∈ effects, P x) :
    ∃ effects, s.followAll p leaving edges = .ok effects ∧ ∀ x ∈ effects, P x := by
  induction edges with
  | nil => exact ⟨[], rfl, by simp⟩
  | cons e edges ih =>
      obtain ⟨later, hlater, hall⟩ := ih fun e' he' => h e' (List.mem_cons_of_mem _ he')
      obtain ⟨here, hhere, hall'⟩ := h e List.mem_cons_self
      refine ⟨later ++ here, followAll_cons_ok hlater hhere, ?_⟩
      intro x hx
      rcases List.mem_append.mp hx with hx | hx
      · exact hall x hx
      · exact hall' x hx

/-- An edge within the rule leads at most to its target. -/
theorem follow_passes {leaving : Bool} {e : Edge} (he : e.passes = true)
    (hlt : e.target < s.network.states.size) :
    ∃ effects, s.follow p leaving e = .ok effects ∧
      ∀ x ∈ effects, x = .visit (if leaving then p.enter e.target else p.pass e.target) := by
  have hnone := isNone_of_lt hlt
  cases e with
  | epsilon t => exact ⟨_, if_neg hnone, fun x hx => (effect_of_pass hx).2⟩
  | command t index => exact ⟨_, if_neg hnone, fun x hx => (effect_of_pass hx).2⟩
  | gate t level =>
      refine ⟨_, if_neg hnone, ?_⟩
      intro x hx
      split at hx
      · cases hx
      · exact (effect_of_pass hx).2
  | call t rule f level => cases he
  | read t label => cases he

/-- A call is possible if the nullability of the rule is known. -/
theorem call_ok {start : StateId} {rule : RuleIndex} {follow : StateId} {level : Int}
    (h : ∃ b, s.nullable rule = .ok b) :
    ∃ effects, s.call p start rule follow level = .ok effects := by
  obtain ⟨b, hb⟩ := h
  rw [Setting.call, hb]
  split
  · split
    · exact ⟨_, rfl⟩
    · split
      · exact ⟨_, rfl⟩
      · exact ⟨_, rfl⟩
  · exact ⟨_, rfl⟩
  · exact ⟨_, rfl⟩

/-- Reading does not fail where the symbols of the label are a set of the alphabet. -/
theorem read_ok {target : StateId} {label : Label} (h : label.Proper s.network.alphabet) :
    ∃ effects, s.read p (.read target label) = .ok effects := by
  obtain ⟨set, hset, -⟩ := h.symbols_eq
  rw [Setting.read, Edge.symbols?_read, hset]
  split
  · exact ⟨_, rfl⟩
  · exact ⟨_, rfl⟩
  · exact ⟨_, rfl⟩

/-- A position terminates if everything that the edges of its state lead to does. -/
theorem Terminates.of_leads {edges : List Edge} (h : s.network.Leads p.state edges)
    (hedges : ∀ e ∈ edges, ∃ effects, s.follow p false e = .ok effects ∧
      ∀ x ∈ effects, ∀ found t, x.task? found = some t → Terminates s t) :
    Terminates s (.explore p) := by
  obtain ⟨⟨state, hstate, hkind, rfl⟩, -⟩ := h
  obtain ⟨effects, heffects, hall⟩ := followAll_ok hedges
  exact .explore ((explore_inside hstate hkind).trans heffects) hall

end

namespace Safe

variable {rules : List (Rule Label RuleIndex)} {s : Setting} {w v : List TokenType} {a b f : Nat}
  {calls : List Call} {r : RuleIndex} {level : Int}

/-- A state with edges within the rule is safe if their targets are. -/
theorem of_passes {edges : List Edge} (h : s.network.Leads a edges)
    (hpasses : ∀ e ∈ edges, e.passes = true) (hedges : ∀ e ∈ edges, Safe s w e.target calls v) :
    Safe s w a calls v := by
  intro p hp
  refine Terminates.of_leads (hp.state_eq.symm ▸ h) fun e he => ?_
  obtain ⟨effects, heffects, hall⟩ := follow_passes (p := p) (hpasses e he) (h.2 e he)
  refine ⟨effects, heffects, fun x hx found t ht => ?_⟩
  rw [hall x hx] at ht
  cases ht
  exact hedges e he _ (hp.pass e.target)

/-- The same for an edge that just moves on. -/
theorem of_epsilon (h : s.network.Leads a [.epsilon b]) (hb : Safe s w b calls v) :
    Safe s w a calls v := by
  refine of_passes h ?_ ?_
  · intro e he
    rw [List.mem_singleton.mp he]
    rfl
  · intro e he
    rw [List.mem_singleton.mp he]
    exact hb

/-- The same for two ways on. -/
theorem of_ways {greedy : Bool} {i : Nat} (h : s.network.Leads a (Network.ways greedy i b))
    (hi : Safe s w i calls v) (hb : Safe s w b calls v) : Safe s w a calls v := by
  have hall : ∀ e ∈ Network.ways greedy i b, e = .epsilon i ∨ e = .epsilon b := by
    intro e he
    cases greedy with
    | true => simpa [Network.ways] using he
    | false => simpa [Network.ways, or_comm] using he
  refine of_passes h ?_ ?_
  · intro e he
    rcases hall e he with rfl | rfl
    · rfl
    · rfl
  · intro e he
    rcases hall e he with rfl | rfl
    · exact hi
    · exact hb

/-- Reading a token leaves fewer tokens. -/
theorem of_read {l : Label} (hstream : s.stream = ⟨w.toArray⟩) (hv : v <:+ w)
    (hl : l.Proper s.network.alphabet) (h : s.network.Leads a [.read b l])
    (hb : ∀ u, Later u v → Safe s w b calls u) : Safe s w a calls v := by
  intro p hp
  refine Terminates.of_leads (hp.state_eq.symm ▸ h) fun e he => ?_
  rw [List.mem_singleton.mp he]
  have hlt : b < s.network.states.size := h.2 (.read b l) (by simp)
  obtain ⟨effects, heffects⟩ : ∃ effects, s.read p (.read b l) = .ok effects := read_ok hl
  refine ⟨effects, (if_neg (isNone_of_lt hlt)).trans heffects, fun x hx found t ht => ?_⟩
  rcases effect_of_read heffects hx with ⟨c, rfl⟩ | ⟨symbol, hlook, rfl⟩
  · cases ht
  · cases ht
    rw [hp.index_eq, hstream, lookahead_of_suffix hv] at hlook
    cases v with
    | nil => cases hlook
    | cons t v =>
        have hlater : Later v (t :: v) := ⟨List.suffix_cons t v, by simp⟩
        exact hb v hlater _ (hp.advance hv b)

/-- At the stop state of a rule the caller goes on, if it goes on at all. -/
theorem of_return {stop : Nat} (ht : s.network.Tidy) (hstop : s.network.stop? r = some stop)
    (hf : Safe s w f calls v) : Safe s w stop (⟨r, some f, level⟩ :: calls) v := by
  intro p hp
  obtain ⟨state, hstate, hkind⟩ := ht.stop_kind r stop hstop
  rw [← hp.state_eq] at hstate
  have hcaller : Position.At w v p.state calls { p with calls } :=
    ⟨rfl, rfl, hp.index_eq, hp.recoveries_le⟩
  -- All edges of the stop state that lead to the follow state are the same edge.
  have hleave : ∃ effects, s.followAll { p with calls } true
      (state.edges.filter fun e => e.target = f) = .ok effects ∧
        ∀ x ∈ effects, x = .visit (Position.enter { p with calls } f) := by
    refine followAll_ok fun e he => ?_
    obtain ⟨hmem, htarget⟩ := List.mem_filter.mp he
    obtain ⟨t, rfl, hlt⟩ := ht.stop_edges p.state state hstate hkind e hmem
    have hsame : t = f := of_decide_eq_true htarget
    subst hsame
    exact follow_passes rfl hlt
  obtain ⟨effects, heffects, hall⟩ := hleave
  have hexplore : s.explore p = .ok effects := by
    simp only [Setting.explore, hstate, if_pos hkind, hp.calls_eq]
    exact heffects
  refine .explore hexplore fun x hx found task htask => ?_
  rw [hall x hx] at htask
  cases htask
  exact hf _ (hcaller.enter f)

/-- At the stop state of the first rule nothing is left to do. -/
theorem of_stop {stop : Nat} (ht : s.network.Tidy) (hstop : s.network.stop? r = some stop) :
    Safe s w stop [⟨r, none, level⟩] v := by
  intro p hp
  obtain ⟨state, hstate, hkind⟩ := ht.stop_kind r stop hstop
  rw [← hp.state_eq] at hstate
  refine .explore (explore_stop hstate hkind ?_) fun x hx found t ht => ?_
  · intro c callers hcalls
    rw [hp.calls_eq] at hcalls
    cases hcalls
    rfl
  · split at hx
    · rw [List.mem_singleton.mp hx] at ht
      cases ht
    · cases hx

end Safe

/-! ### Recovery -/

/-- A token type is found further on, if at all. -/
theorem findAfter?_spec (w : List TokenType) (tokenType : TokenType) {index : Nat}
    (hindex : index < 2 ^ 32) :
    ∃ found?, (TokenStream.mk w.toArray).findAfter? tokenType index = .ok found? ∧
      ∀ found : Nat, found? = some found → index < found ∧ found < w.length := by
  have hnext : natAdd nat64Max index 1 = .ok (index + 1) := if_pos (by rw [nat64Max]; omega)
  refine ⟨_, by rw [TokenStream.findAfter?, hnext]; rfl, ?_⟩
  intro found hfound
  obtain ⟨k, hk, rfl⟩ := Option.map_eq_some_iff.mp hfound
  have hlt := (List.findIdx?_eq_some_iff_getElem.mp hk).1
  rw [List.length_drop, List.toList_toArray] at hlt
  omega

/-- A position further on has fewer tokens to go. -/
theorem exists_later {w v : List TokenType} (index : Nat) (hv : v <:+ w)
    (hlt : w.length - v.length < index) (hle : index ≤ w.length) :
    ∃ u, Later u v ∧ u <:+ w ∧ index = w.length - u.length := by
  have hlength := hv.length_le
  have hsuffix : w.drop index <:+ v := by
    refine List.suffix_of_suffix_length_le (List.drop_suffix index w) hv ?_
    rw [List.length_drop]
    omega
  refine ⟨w.drop index, ⟨hsuffix, ?_⟩, List.drop_suffix index w, ?_⟩
  · intro heq
    have hsame := congrArg List.length heq
    rw [List.length_drop] at hsame
    omega
  · rw [List.length_drop]
    omega

section

variable {rules : List (Rule Label RuleIndex)} {s : Setting} {w v : List TokenType} {a f : Nat}
  {calls : List Call} {p : Position} {r : RuleIndex} {level : Int}

/-- A recovery rule goes on in front of fewer tokens, behind the call or in a rule. -/
theorem resume_spec (hs : s.Bounded rules w) (hv : v <:+ w) (hp : p.At w v f calls) (g : Guard)
    (rule : RecoveryRule) :
    ∃ next?, s.resume p g rule = .ok next? ∧ ∀ next, next? = some next →
      ∃ u, Later u v ∧ (next.At w u f calls ∨ ∃ r start, s.network.start? r = some start ∧
        next.At w u start (⟨r, some f, g.level⟩ :: calls)) := by
  have hindex := hp.index_eq
  have hrecoveries := hp.recoveries_le
  have hlength := hs.length_lt
  obtain ⟨found?, hfind, hfound⟩ := findAfter?_spec w rule.token (show p.index < 2 ^ 32 by omega)
  rw [← hs.stream_eq] at hfind
  simp only [Setting.resume, hfind, bind, Except.bind, pure, Except.pure]
  cases found? with
  | none => exact ⟨none, rfl, by simp⟩
  | some found =>
      obtain ⟨hlow, hhigh⟩ := hfound found rfl
      have hcount : natAdd nat32Max p.recoveries 1 = .ok (p.recoveries + 1) :=
        if_pos (by rw [nat32Max]; omega)
      -- Behind the token there is room for one more recovery.
      obtain ⟨u, hu, -, hat⟩ := exists_later (if rule.skipOne then found + 1 else found) hv
        (by split <;> omega) (by split <;> omega)
      have hle : p.recoveries + 1 ≤ if rule.skipOne then found + 1 else found := by
        split <;> omega
      cases htarget : rule.target with
      | finishRule =>
          simp only [hcount]
          refine ⟨_, rfl, ?_⟩
          intro next hnext
          cases hnext
          exact ⟨u, hu, Or.inl ⟨hp.state_eq, hp.calls_eq, hat, hle⟩⟩
      | goToRule r =>
          cases hstart : s.network.start? r with
          | none =>
              simp only [hstart]
              exact ⟨none, rfl, by simp⟩
          | some start =>
              simp only [hstart, hcount]
              refine ⟨_, rfl, ?_⟩
              intro next hnext
              cases hnext
              refine ⟨u, hu, Or.inr ⟨r, start, hstart, rfl, ?_, hat, hle⟩⟩
              rw [← hp.state_eq, ← hp.calls_eq]
              rfl

/-- A guard terminates if the call can be left in front of fewer tokens, and if every rule can be
entered there. -/
theorem Terminates.of_guard (hs : s.Bounded rules w) (hv : v <:+ w)
    (hf : ∀ u, Later u v → Safe s w f calls u)
    (hrules : ∀ u r start level, Later u v → s.network.start? r = some start →
      Safe s w start (⟨r, some f, level⟩ :: calls) u) (hp : p.At w v f calls) (g : Guard) :
    Terminates s (.watch p g) := by
  refine .watch ?_ ?_
  · intro rule _
    obtain ⟨next?, hresume, -⟩ := resume_spec hs hv hp g rule
    exact ⟨next?, hresume⟩
  · intro rule _ next hnext
    obtain ⟨next?, hresume, hat⟩ := resume_spec hs hv hp g rule
    obtain ⟨u, hu, hat⟩ := hat next (Except.ok.inj (hresume.symm.trans hnext))
    rcases hat with hat | ⟨r, start, hstart, hat⟩
    · exact hf u hu next hat
    · exact hrules u r start g.level hu hstart next hat

/-- A call is safe if the rule is, and if what comes behind it is where it is gone to without the
rule. -/
theorem Safe.of_call {start : Nat} (hs : s.Bounded rules w)
    (h : s.network.Leads a [.call start r f level])
    (hentered : Safe s w start (⟨r, some f, level⟩ :: calls) v)
    (hpassed : knownNullable rules r = true → Safe s w f calls v)
    (hguard : ∀ p, p.At w v f calls → ∀ g, Terminates s (.watch p g)) : Safe s w a calls v := by
  intro p hp
  refine Terminates.of_leads (hp.state_eq.symm ▸ h) fun e he => ?_
  rw [List.mem_singleton.mp he]
  have hlt : start < s.network.states.size := h.2 (.call start r f level) (by simp)
  have hfollow : s.follow p false (.call start r f level) =
      if start ∈ p.visited then .ok [] else s.call p start r f level := if_neg (isNone_of_lt hlt)
  by_cases hvisited : start ∈ p.visited
  · exact ⟨[], hfollow.trans (if_pos hvisited), by simp⟩
  · obtain ⟨effects, heffects⟩ : ∃ effects, s.call p start r f level = .ok effects :=
      call_ok (hs.nullable_ok r)
    refine ⟨effects, (hfollow.trans (if_neg hvisited)).trans heffects, fun x hx found t ht => ?_⟩
    -- A call is found, entered, passed over, or guarded.
    rcases effect_of_call heffects hx with ⟨c, rfl⟩ | rfl | ⟨rfl, hpasses⟩ | ⟨k, _, rfl, -⟩
    · cases ht
    · cases ht
      exact hentered _ (hp.call start _)
    · cases ht
      exact hpassed (hs.nullable_of_passes r hpasses) _ (hp.enter f)
    · cases ht
      exact hguard _ (hp.enter f) _

end

/-! ### Phrases -/

/-- What comes behind a phrase is safe: in front of the same tokens if the phrase is nullable, and
in front of fewer tokens. -/
structure SafeBehind (s : Setting) (w : List TokenType) (nullable : Bool) (b : Nat)
    (calls : List Call) (v : List TokenType) : Prop where
  same : nullable = true → Safe s w b calls v
  later : ∀ u, Later u v → Safe s w b calls u

/-- The piece of a phrase is safe if what comes behind it is. A choice is looked at from its
decision on, and so are repeated parts and operators. A rule is looked at from a call and from its
start. -/
def Protects (rules : List (Rule Label RuleIndex)) (s : Setting) (w : List TokenType) :
    Phrase Label RuleIndex → List TokenType → Prop
  | .expr (.alt es), v => ∀ calls edges b, s.network.Branches es edges b →
      SafeBehind s w (Expr.anyNullable (knownNullable rules) es) b calls v →
        ∀ e ∈ edges, Safe s w e.target calls v
  | .expr (.star e greedy), v => ∀ calls d i x b, s.network.Leads d (Network.ways greedy i b) →
      s.network.Wired e i x → s.network.Leads x [.epsilon d] → SafeBehind s w true b calls v →
        Safe s w d calls v
  | .expr e, v => ∀ calls a b, s.network.Wired e a b →
      SafeBehind s w (e.nullable (knownNullable rules)) b calls v → Safe s w a calls v
  | .rule r level, v => (∀ calls a f, s.network.Calls a r level f →
      SafeBehind s w (knownNullable rules r) f calls v → Safe s w a calls v) ∧
        ∀ calls f start, s.network.start? r = some start →
          SafeBehind s w (knownNullable rules r) f calls v →
            Safe s w start (⟨r, some f, level⟩ :: calls) v
  | .body r level, v => ∀ follow calls start stop, s.network.start? r = some start →
      s.network.stop? r = some stop →
        SafeBehind s w (knownNullable rules r) stop (⟨r, follow, level⟩ :: calls) v →
          Safe s w start (⟨r, follow, level⟩ :: calls) v
  | .loop r level _, v => ∀ follow calls entry gates b primaries operators,
      rules[r]?.map Rule.body = some (.precedence primaries operators) →
      s.network.Gates r entry operators operators.length gates →
      s.network.Leads entry (gates ++ [.epsilon b]) →
      SafeBehind s w true b (⟨r, follow, level⟩ :: calls) v →
        Safe s w entry (⟨r, follow, level⟩ :: calls) v

/-- What lies behind the gates of operators. -/
theorem Network.Gates.of_mem {n : Network} {r : RuleIndex} {entry : Nat}
    {es : List (Expr Label RuleIndex)} {level : Int} {gates : List Edge}
    (h : n.Gates r entry es level gates) : ∀ gate ∈ gates, ∃ e ∈ es, ∃ i l x f,
      gate = .gate i l ∧ n.Wired e i x ∧ n.Calls x r (l + 1) f ∧ n.Leads f [.epsilon entry] := by
  induction h with
  | nil => simp
  | @cons e es level i x f edges hwired hcalls hleads _ ih =>
      intro gate hgate
      rcases List.mem_cons.mp hgate with rfl | hgate
      · exact ⟨e, List.mem_cons_self, i, level, x, f, rfl, hwired, hcalls, hleads⟩
      · obtain ⟨e', he', hrest⟩ := ih gate hgate
        exact ⟨e', List.mem_cons_of_mem _ he', hrest⟩

section

variable {rules : List (Rule Label RuleIndex)} {alphabet : Universe} {s : Setting}
  {w v : List TokenType}

/-- In front of fewer tokens it makes no difference whether the phrase is nullable. -/
theorem SafeBehind.of_later {nullable nullable' : Bool} {b : Nat} {calls : List Call}
    {u : List TokenType} (h : SafeBehind s w nullable b calls v) (hu : Later u v) :
    SafeBehind s w nullable' b calls u where
  same _ := h.later u hu
  later u' hu' := h.later u' (hu.of_suffix hu'.1)

/-- Where `b` is safe, so is every state that leads to states which are safe where `b` is. -/
theorem SafeBehind.map {nullable nullable' : Bool} {b b' : Nat} {calls calls' : List Call}
    (h : SafeBehind s w nullable b calls v) (hnullable : nullable' = true → nullable = true)
    (hsafe : ∀ u, Safe s w b calls u → Safe s w b' calls' u) :
    SafeBehind s w nullable' b' calls' v where
  same htrue := hsafe v (h.same (hnullable htrue))
  later u hu := hsafe u (h.later u hu)

/-- The piece of an expression, looked at from its start on. -/
theorem Protects.piece {e : Expr Label RuleIndex} (h : Protects rules s w (.expr e) v)
    {calls : List Call} {a b : Nat} (hwired : s.network.Wired e a b)
    (hb : SafeBehind s w ((Phrase.expr e).nullable (knownNullable rules)) b calls v) :
    Safe s w a calls v := by
  cases e with
  | alt es =>
      cases hwired with
      | alt hsource hd hbranches =>
          refine .of_epsilon hsource (.of_passes hd ?_ (h calls _ b hbranches hb))
          intro e he
          obtain ⟨t, rfl⟩ := hbranches.epsilon e he
          rfl
  | star e greedy =>
      cases hwired with
      | star hsource hways hbody hlast =>
          exact .of_epsilon hsource (h _ _ _ _ _ hways hbody hlast hb)
  | terminal l => exact h _ _ _ hwired hb
  | rule r => exact h _ _ _ hwired hb
  | empty => exact h _ _ _ hwired hb
  | seq es => exact h _ _ _ hwired hb
  | optional e greedy => exact h _ _ _ hwired hb
  | plus e greedy => exact h _ _ _ hwired hb

/-- A part that reads a token is left in front of fewer tokens. -/
theorem SafeBehind.of_not_nullable {e : Expr Label RuleIndex} {b : Nat} {calls : List Call}
    (he : e.nullable (knownNullable rules) = false) (hlater : ∀ u, Later u v → Safe s w b calls u) :
    SafeBehind s w ((Phrase.expr e).nullable (knownNullable rules)) b calls v where
  same htrue := by
    rw [Expr.nullable_of_phrase htrue] at he
    cases he
  later := hlater

/-- Only rules of the grammar have a start state. -/
theorem lt_of_start? (hn : s.network.Realizes rules alphabet) {r : RuleIndex} {start : Nat}
    (h : s.network.start? r = some start) : r < rules.length := by
  rw [← hn.count_eq]
  exact (Array.getElem?_eq_some_iff.mp h).1

/-- A rule is protected if its body is, and if every rule is in front of fewer tokens. -/
theorem protects_rule (hs : s.Bounded rules w) (hn : s.network.Realizes rules alphabet)
    {r : RuleIndex} {level : Int} (hv : v <:+ w) (hbody : Protects rules s w (.body r level) v)
    (hlater : ∀ u r' level', Later u v → r' < rules.length →
      Protects rules s w (.rule r' level') u) :
    Protects rules s w (.rule r level) v := by
  -- The body ends at the stop state, from where the caller goes on.
  have hentered : ∀ calls f start, s.network.start? r = some start →
      SafeBehind s w (knownNullable rules r) f calls v →
        Safe s w start (⟨r, some f, level⟩ :: calls) v := by
    intro calls f start hstart hf
    obtain ⟨-, -, stop, -, hstop, -⟩ :=
      hn.wired r _ (List.getElem?_eq_getElem (lt_of_start? hn hstart))
    refine hbody (some f) calls start stop hstart hstop ?_
    exact hf.map id fun u hu => .of_return hn.tidy hstop hu
  refine ⟨?_, hentered⟩
  intro calls a f hcalls hf
  obtain ⟨start, hstart, hleads, -⟩ := hcalls
  refine .of_call hs hleads (hentered calls f start hstart hf) hf.same ?_
  -- A guard goes on behind the call, or in a rule that is entered there.
  refine fun p hp g => .of_guard hs hv hf.later ?_ hp g
  intro u r' start' level' hu hstart'
  exact (hlater u r' level' hu (lt_of_start? hn hstart')).2 calls f start' hstart' (hf.of_later hu)

/-- Operators are protected if each of them is, and if their operands and the operators from the
start are in front of fewer tokens. -/
theorem protects_loop {r : RuleIndex} {level : Int} {next : Nat}
    {primaries operators : List (Expr Label RuleIndex)}
    (hbody : rules[r]?.map Rule.body = some (.precedence primaries operators))
    (hnullable : ∀ e ∈ operators, e.nullable (knownNullable rules) = false)
    (hoperators : ∀ e ∈ operators, Protects rules s w (.expr e) v)
    (hrule : ∀ u level', Later u v → Protects rules s w (.rule r level') u)
    (hloop : ∀ u, Later u v → Protects rules s w (.loop r level 0) u) :
    Protects rules s w (.loop r level next) v := by
  intro follow calls entry gates b primaries' operators' hbody' hgates hentry hb
  cases hbody.symm.trans hbody'
  have hagain : ∀ u, Later u v → Safe s w entry (⟨r, follow, level⟩ :: calls) u := fun u hu =>
    hloop u hu follow calls entry gates b _ _ hbody hgates hentry (hb.of_later hu)
  refine .of_passes hentry ?_ ?_
  · intro e he
    rcases List.mem_append.mp he with he | he
    · exact hgates.passes e he
    · rw [List.mem_singleton.mp he]
      rfl
  · intro gate hgate
    rcases List.mem_append.mp hgate with hgate | hgate
    · -- An operator reads a token, so its operand and the next operators have fewer to go.
      obtain ⟨e, he, i, l, x, f, rfl, hwired, hcalls, hlast⟩ := hgates.of_mem gate hgate
      refine (hoperators e he).piece hwired (.of_not_nullable (hnullable e he) fun u hu => ?_)
      refine (hrule u (l + 1) hu).1 _ x f hcalls ⟨fun _ => .of_epsilon hlast (hagain u hu), ?_⟩
      exact fun u' hu' => .of_epsilon hlast (hagain u' (hu.of_suffix hu'.1))
    · rw [List.mem_singleton.mp hgate]
      exact hb.same rfl

/-- The pieces of a grounded phrase are safe if what comes behind them is. -/
theorem Grounded.protects {x : Phrase Label RuleIndex} (hs : s.Bounded rules w)
    (hn : s.network.Realizes rules alphabet) (h : Grounded rules x v) (hv : v <:+ w) :
    Protects rules s w x v := by
  -- Induction on the evidence. There is a hypothesis for the same tokens only behind a phrase that
  -- may read nothing, which is just where `SafeBehind` asks for one.
  induction h with
  | terminal =>
      intro calls a b hwired hb
      cases hwired with
      | terminal hproper hleads => exact .of_read hs.stream_eq hv hproper hleads hb.later
  | ref _ ih =>
      intro calls a b hwired hb
      cases hwired with
      | rule hcalls => exact (ih hv).1 calls a b hcalls hb
  | empty =>
      intro calls a b hwired hb
      cases hwired
      exact hb.same rfl
  | seqNil =>
      intro calls a b hwired hb
      cases hwired
      exact hb.same rfl
  | @seqCons e es v _ _ _ ih ihsame ihlater =>
      intro calls a b hwired hb
      cases hwired with
      | seqCons hwired hwired' =>
          refine (ih hv).piece hwired ⟨fun hnullable => ?_, fun u hu => ?_⟩
          · -- If the first part may read nothing, the rest starts in front of the same tokens.
            have hfirst := Expr.nullable_of_phrase hnullable
            refine (ihsame hfirst hv).piece hwired' ⟨fun hrest => hb.same ?_, hb.later⟩
            have hrest' : Expr.allNullable (knownNullable rules) es = true := by
              rw [← Expr.nullable_of_phrase hrest, Expr.nullable]
            rw [Expr.nullable, Expr.allNullable, hfirst, hrest']
            rfl
          · exact (ihlater u hu (hu.1.trans hv)).piece hwired' (hb.of_later hu)
  | altNil =>
      intro calls edges b hbranches hb e he
      cases hbranches
      cases he
  | altCons _ _ ih ih' =>
      intro calls edges b hbranches hb edge hedge
      cases hbranches with
      | cons hwired hlast hrest =>
          rcases List.mem_cons.mp hedge with rfl | hedge
          · refine (ih hv).piece hwired (hb.map (fun hnullable => ?_) fun u hu =>
              .of_epsilon hlast hu)
            rw [Expr.anyNullable, Expr.nullable_of_phrase hnullable, Bool.true_or]
          · refine ih' hv calls _ b hrest (hb.map (fun hnullable => ?_) fun u hu => hu) edge hedge
            rw [Expr.anyNullable, hnullable, Bool.or_true]
  | optional _ ih =>
      intro calls a b hwired hb
      cases hwired with
      | optional hsource hways hwired hlast =>
          refine .of_epsilon hsource (.of_ways hways ?_ (hb.same rfl))
          exact (ih hv).piece hwired (hb.map (fun _ => rfl) fun u hu => .of_epsilon hlast hu)
  | star hnullable _ _ ih ihlater =>
      intro calls d i x b hways hwired hlast hb
      -- The part reads a token, so the decision is come to again in front of fewer tokens.
      refine .of_ways hways ((ih hv).piece hwired (.of_not_nullable hnullable fun u hu => ?_))
        (hb.same rfl)
      exact .of_epsilon hlast (ihlater u hu (hu.1.trans hv) calls d i x b hways hwired hlast
        (hb.of_later hu))
  | plus hnullable _ _ ih ihlater =>
      intro calls a b hwired hb
      cases hwired with
      | @plus _ _ _ d i x _ hsource hwired hlast hways =>
          refine .of_epsilon hsource
            ((ih hv).piece hwired (.of_not_nullable hnullable fun u hu => ?_))
          exact .of_epsilon hlast (ihlater u hu (hu.1.trans hv) calls d i x b hways hwired hlast
            (hb.of_later hu))
  | rule _ _ ih ihlater =>
      exact protects_rule hs hn hv (ih hv) fun u r' level' hu hr' =>
        ihlater u r' level' hu hr' (hu.1.trans hv)
  | plain hbody _ ih =>
      intro follow calls start stop hstart hstop hb
      obtain ⟨exit, hwired, hlast⟩ := wiredBody_of_realizes hn hbody hstart hstop
      cases hwired with
      | plain hwired =>
          refine (ih hv).piece hwired (hb.map (fun hnullable => ?_) fun u hu =>
            .of_epsilon hlast hu)
          exact knownNullable_of_body hbody (Expr.nullable_of_phrase hnullable)
  | @precedence r level primaries operators v hbody _ _ _ ih ihsame ihlater =>
      intro follow calls start stop hstart hstop hb
      obtain ⟨exit, hwired, hlast⟩ := wiredBody_of_realizes hn hbody hstart hstop
      cases hwired with
      | precedence hwired hsource hgates hentry =>
          refine (ih hv).piece hwired ⟨fun hany => ?_, fun u hu => ?_⟩
          · -- A primary that reads nothing makes the rule nullable, operators or not.
            have hknown : knownNullable rules r = true := knownNullable_of_body hbody hany
            refine .of_epsilon hsource
              (ihsame hany hv follow calls _ _ _ _ _ hbody hgates hentry ?_)
            exact hb.map (fun _ => hknown) fun u hu => .of_epsilon hlast hu
          · refine .of_epsilon hsource (ihlater u hu (hu.1.trans hv) follow calls _ _ _ _ _ hbody
              hgates hentry ?_)
            exact (hb.of_later hu).map (fun _ => rfl) fun u' hu' => .of_epsilon hlast hu'
  | loop hbody hnullable _ _ _ ih ihrule ihloop =>
      exact protects_loop hbody hnullable (fun e he => ih e he hv)
        (fun u level' hu => ihrule u level' hu (hu.1.trans hv))
        fun u hu => ihloop u hu (hu.1.trans hv)

end

/-! ### Traversals -/

section

variable {rules : List (Rule Label RuleIndex)} {alphabet : Universe} {w : List TokenType}

/-- Traversals come to an end. -/
theorem Traversal.run_ends {s : Setting} (h : WellFormed rules alphabet) (hs : s.Bounded rules w)
    (hn : s.network.Realizes rules alphabet) (r : RuleIndex) :
    ∃ T, Ends (fun limit => Traversal.run s limit r) T := by
  cases hstart : s.network.start? r with
  | none => exact ⟨.empty, 0, fun limit _ => by simp only [Traversal.run, hstart]⟩
  | some start =>
      have hr := lt_of_start? hn hstart
      obtain ⟨-, -, stop, -, hstop, -⟩ := hn.wired r _ (List.getElem?_eq_getElem hr)
      have hbody : Grounded rules (.body r 0) w := by
        cases (h.allGrounded w).rule r 0 hr with
        | rule hbody _ => exact hbody
      -- Behind the first rule there is nothing left to do, so it is safe there.
      have hsafe : Safe s w start [⟨r, none, 0⟩] w :=
        hbody.protects hs hn (List.suffix_refl w) none [] start stop hstart hstop
          ⟨fun _ => .of_stop hn.tidy hstop, fun u _ => .of_stop hn.tidy hstop⟩
      have hat : Position.At w w start [⟨r, none, 0⟩] ⟨start, 0, [], [⟨r, none, 0⟩], 0⟩ :=
        ⟨rfl, rfl, (Nat.sub_self _).symm, Nat.le_refl _⟩
      obtain ⟨last, hlast⟩ :=
        (hsafe _ hat).halting [] (halting_nil s) (Machine.start r start) rfl
      refine ⟨.ofMachine last, (hlast.map Traversal.ofMachine).congr 0 fun limit _ => ?_⟩
      simp only [Traversal.run, hstart]

/-- A table that lets rules be passed only if they are nullable does not keep a traversal from
ending. -/
theorem exists_traverse_ends {n : Network} (h : WellFormed rules alphabet)
    (hn : n.Realizes rules alphabet) (hw : w.length < 2 ^ 32) (options : Options)
    (htable : ∀ f, options.firstTokens = some f →
      ∀ r, f.isNullable r = true → knownNullable rules r = true) (r : RuleIndex) :
    ∃ T, Ends (fun limit => traverse n ⟨w.toArray⟩ options limit r) T := by
  obtain ⟨nullable, hnullable, bound, hsettled⟩ := Setting.ofOptions_ends h hn
  -- A rule is passed if the table says so or if its own traversal comes to an end, and both hold of
  -- nullable rules only.
  have hpasses : ∀ r, (Setting.settled n ⟨w.toArray⟩ options nullable).Passes r →
      knownNullable rules r = true := by
    intro r hr
    rcases hr with hr | ⟨f, hf, hr⟩
    · have htrue : options.isNullable nullable r = true := Except.ok.inj hr
      rw [Options.isNullable] at htrue
      split at htrue
      · rename_i f hf
        exact htable f hf r htrue
      · obtain ⟨hlt, hyields⟩ := (hnullable r).mp htrue
        exact h.nullable_of_yields hlt hyields
    · exact htable f hf r hr
  have hbounded : (Setting.settled n ⟨w.toArray⟩ options nullable).Bounded rules w :=
    ⟨rfl, hw, fun r => ⟨_, rfl⟩, hpasses⟩
  obtain ⟨T, hT⟩ := Traversal.run_ends h hbounded hn r
  refine ⟨T, hT.congr bound fun limit hlimit => ?_⟩
  rw [traverse, hsettled limit hlimit]

end

/-- Every traversal of an accepted grammar comes to an end: over any tokens, from any rule, with any
rules reported as a whole, with any recovery rules, and without a table of first tokens, with an
empty one or with the one of the network. The table can be made, and the traversals that it and the
nullability of a rule are found by end as well. -/
theorem traversals_terminate {s : Source} {g : Grammar} (h : s.build = .ok g)
    (hsize : s.numbering.size < 2 ^ 31 - 2) :
    (∀ r, ∃ T, Ends (fun limit => Traversal.atStart g.recognizer.network limit r) T) ∧
      ∃ f, Ends (fun limit => FirstTokens.ofNetwork g.recognizer.network limit) f ∧
        ∀ table, table = none ∨ table = some .empty ∨ table = some f →
          ∀ w : List TokenType, w.length < 2 ^ 32 → ∀ reported recovery r,
            ∃ T, Ends (fun limit => traverse g.recognizer.network ⟨w.toArray⟩
              ⟨reported, recovery, table⟩ limit r) T := by
  have hwf := Source.wellFormed_of_build h hsize
  have hn := Source.realizes_of_build h hsize
  refine ⟨fun r => ?_, ?_⟩
  · -- In front of the caret alone every rule is entered.
    have hnone : ∀ r, ¬ Setting.Passes
        ⟨g.recognizer.network, .caretOnly, .none, fun _ => .ok false⟩ r := by
      rintro r (hfalse | ⟨f, hf, -⟩)
      · cases hfalse
      · cases hf
    exact Traversal.run_ends (w := []) hwf
      ⟨rfl, by decide, fun r => ⟨_, rfl⟩, fun r hr => absurd hr (hnone r)⟩ hn r
  · obtain ⟨f, hf, hdescribes⟩ := FirstTokens.ofNetwork_ends hwf hn
    refine ⟨f, hf, ?_⟩
    intro table htable w hw reported recovery r
    refine exists_traverse_ends hwf hn hw _ ?_ r
    intro f' hf' r' hr'
    rcases htable with rfl | rfl | rfl
    · cases hf'
    · cases hf'
      simp [FirstTokens.isNullable, FirstTokens.entry?, FirstTokens.empty] at hr'
    · cases hf'
      exact hdescribes.knownNullable hwf hr'

/-- A list with an error behind its first `x`, from which there are two ways to recover. -/
theorem product_traversals_terminate : ∃ g, productGrammar.build = .ok g ∧
    productGrammar.numbering.size < 2 ^ 31 - 2 ∧
    ∃ f, Ends (fun limit => FirstTokens.ofNetwork g.recognizer.network limit) f ∧
      ([2, 2, 1, 2, 1] : List TokenType).length < 2 ^ 32 ∧
      ∃ T, Ends (fun limit => traverse g.recognizer.network ⟨#[2, 2, 1, 2, 1]⟩
        ⟨[1], [.goToRule 0 1 0, .finishRule 1 1], some f⟩ limit 0) T := by
  obtain ⟨g, hg⟩ := exists_build_productGrammar
  obtain ⟨-, f, hf, hall⟩ := traversals_terminate hg size_numbering_productGrammar
  exact ⟨g, hg, size_numbering_productGrammar, f, hf, by decide,
    hall (some f) (Or.inr (Or.inr rfl)) [2, 2, 1, 2, 1] (by decide) _ _ 0⟩

end Caret
