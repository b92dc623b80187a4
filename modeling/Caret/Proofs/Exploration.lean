import Caret.Proofs.Growth
import Caret.Proofs.Reach
import Caret.Traversal.Basic

/-!
# `Caret.Proofs.Exploration`: exploring positions to the end

`Settles s ps outs` says that exploring the positions `ps` one after the other, and all positions
that they lead to, comes to an end with the outputs `outs`, where every position is explored as if
no state had been passed before. A machine does remember the states it passed and does not enter
them again. `Settles.run` states that this makes no difference in a tidy network: the machine ends,
with the same outputs in the same order.

The reason is that an exploration that comes to an end has no cycle. A state that the machine would
refuse was passed since the last token or rule boundary. So the same place, with the same calls and
the same tokens to go, would lead to itself.
-/

set_option autoImplicit false

namespace Caret

/-- With enough steps allowed, the computation has this result. -/
def Ends {α : Type} (f : Nat → Except Halt α) (a : α) : Prop :=
  ∃ bound, ∀ limit, bound ≤ limit → f limit = .ok a

/-- The position as if no state had been passed. -/
def Position.bare (p : Position) : Position := { p with visited := [] }

namespace Effect

/-- The position that an effect leads to. -/
def position? : Effect → Option Position
  | .visit p => some p
  | _ => none

/-- The candidate that an effect reports. -/
def candidate? : Effect → Option Candidate
  | .report c => some c
  | _ => none

/-- Whether the effect says something about the result. -/
def isOutput : Effect → Bool
  | .finish => true
  | .report _ => true
  | _ => false

/-- Whether the effect sets a guard. -/
def isGuard : Effect → Bool
  | .guard _ _ _ => true
  | _ => false

/-- The effect as if no state had been passed. -/
def bare : Effect → Effect
  | .visit p => .visit p.bare
  | e => e

end Effect

/-- The positions that effects lead to, the one that is explored next first. -/
def visits (effects : List Effect) : List Position :=
  (effects.filterMap Effect.position?).reverse

/-- The outputs among effects. -/
def outputs (effects : List Effect) : List Effect := effects.filter Effect.isOutput

section

variable (es es' : List Effect) (p : Position) (c : Candidate)

/-- Nothing leads nowhere. -/
@[simp] theorem visits_nil : visits [] = [] := rfl

/-- Effects are pushed one by one, so the first of them is explored last. -/
@[simp] theorem visits_visit : visits (.visit p :: es) = visits es ++ [p] := by
  simp [visits, Effect.position?]

/-- A report leads nowhere. -/
@[simp] theorem visits_report : visits (.report c :: es) = visits es := rfl

/-- Neither does the end of the traversal. -/
@[simp] theorem visits_finish : visits (.finish :: es) = visits es := rfl

/-- Later effects are explored first. -/
@[simp] theorem visits_append : visits (es ++ es') = visits es' ++ visits es := by
  simp [visits, List.filterMap_append]

variable {es p} in
/-- The positions that effects lead to are those of their visits. -/
theorem mem_visits : p ∈ visits es ↔ .visit p ∈ es := by
  rw [visits, List.mem_reverse, List.mem_filterMap]
  constructor
  · rintro ⟨e, he, hpos⟩
    cases e with
    | visit q =>
        cases hpos
        exact he
    | _ => cases hpos
  · exact fun h => ⟨.visit p, h, rfl⟩

/-- Nothing has no output. -/
@[simp] theorem outputs_nil : outputs [] = [] := rfl

/-- A visit is no output. -/
@[simp] theorem outputs_visit : outputs (.visit p :: es) = outputs es := rfl

/-- A report is one. -/
@[simp] theorem outputs_report : outputs (.report c :: es) = .report c :: outputs es := rfl

/-- So is the end of the traversal. -/
@[simp] theorem outputs_finish : outputs (.finish :: es) = .finish :: outputs es := rfl

/-- Outputs stay in the order of effects. -/
@[simp] theorem outputs_append : outputs (es ++ es') = outputs es ++ outputs es' := by
  simp [outputs, List.filter_append]

/-- Reports lead nowhere. -/
@[simp] theorem visits_map_report {α : Type} (xs : List α) (f : α → Candidate) :
    visits (xs.map fun x => .report (f x)) = [] := by
  induction xs with
  | nil => rfl
  | cons x xs ih => exact ih

/-- Reports are all put out. -/
@[simp] theorem outputs_map_report {α : Type} (xs : List α) (f : α → Candidate) :
    outputs (xs.map fun x => .report (f x)) = xs.map fun x => .report (f x) := by
  induction xs with
  | nil => rfl
  | cons x xs ih => simp [ih]

end

section

variable (s : Setting)

/-- Exploring the positions, and all that they lead to, has these outputs. No state counts as passed
before. -/
inductive Settles : List Position → List Effect → Prop where
  | nil : Settles [] []
  | cons {p : Position} {ps : List Position} {effects outs : List Effect} :
      s.explore p = .ok effects → (∀ e ∈ effects, e.isGuard = false) →
        Settles ((visits effects).map Position.bare ++ ps) outs →
          Settles (p :: ps) (outputs effects ++ outs)

/-- The position `q` is one that exploring `p` leads to. -/
def LeadsTo (q p : Position) : Prop :=
  ∃ effects, s.explore p = .ok effects ∧ q ∈ (visits effects).map Position.bare

end

namespace Settles

variable {s : Setting} {ps qs : List Position} {outs outs' : List Effect}

/-- What was put on the stack first is explored after the rest. -/
theorem append (h : Settles s ps outs) (h' : Settles s qs outs') :
    Settles s (ps ++ qs) (outs ++ outs') := by
  induction h with
  | nil => exact h'
  | cons hexplore hguards _ ih =>
      rw [List.cons_append, List.append_assoc]
      rw [List.append_assoc] at ih
      exact .cons hexplore hguards ih

/-- Exploring one position: its own outputs come first, then those of all that it leads to. -/
theorem single {p : Position} {effects : List Effect} (hexplore : s.explore p = .ok effects)
    (hguards : ∀ e ∈ effects, e.isGuard = false)
    (hrest : Settles s ((visits effects).map Position.bare) outs) :
    Settles s [p] (outputs effects ++ outs) :=
  .cons hexplore hguards (by rw [List.append_nil]; exact hrest)

/-- From a position that is explored to the end no way goes on for ever. -/
theorem acc (h : Settles s ps outs) : ∀ p ∈ ps, Acc (LeadsTo s) p := by
  induction h with
  | nil => simp
  | @cons p ps effects outs hexplore _ _ ih =>
      intro q hq
      rcases List.mem_cons.mp hq with rfl | hq
      · -- An exploration has one result, so all that the position leads to was explored as well.
        refine Acc.intro q ?_
        rintro q' ⟨effects', hexplore', hq'⟩
        rw [hexplore] at hexplore'
        cases hexplore'
        exact ih q' (List.mem_append_left _ hq')
      · exact ih q (List.mem_append_right _ hq)

end Settles

/-! ### Remembering the states that were passed -/

/-- The setting counts a rule as one that can be passed without reading a token. -/
def Setting.Passes (s : Setting) (rule : RuleIndex) : Prop :=
  s.nullable rule = .ok true ∨ ∃ f, s.options.firstTokens = some f ∧ f.isNullable rule = true

/-- What holds of the positions that a machine comes to: the states it remembers were entered within
the rule, they lead to where it is, and callers go on at their follow states. -/
structure Position.Coherent (s : Setting) (p : Position) : Prop where
  passed : ∀ t ∈ p.visited, s.network.IsPassed t
  reaches : ∀ t ∈ p.visited,
    Relation.ReflTransGen (LeadsTo s) p.bare { p.bare with state := t }
  follow : ∀ c ∈ p.calls, ∀ f, c.follow = some f → s.network.IsFollow f

section Coherent

variable {s : Setting} {p q : Position}

/-- What a call can lead to: candidates, the rule, the state behind it if the rule can be passed,
and a guard there if there is a recovery rule for the rule. -/
theorem effect_of_call {start : StateId} {rule : RuleIndex} {follow : StateId} {level : Int}
    {effects : List Effect} (h : s.call p start rule follow level = .ok effects) {e : Effect}
    (he : e ∈ effects) :
    (∃ c, e = .report c) ∨ e = .visit (p.call start ⟨rule, some follow, level⟩) ∨
      (e = .visit (p.enter follow) ∧ s.Passes rule) ∨
      ∃ k r, e = .guard (p.enter follow) k level ∧ s.options.recovery[k]? = some r ∧
        r.inRule = rule := by
  -- Entering the rule is the last resort of three branches, so it is looked at first.
  have hentered : ∀ effects', e ∈ effects' → effects' = s.enter p start rule follow level →
      e = .visit (p.call start ⟨rule, some follow, level⟩) ∨
        ∃ k r, e = .guard (p.enter follow) k level ∧ s.options.recovery[k]? = some r ∧
          r.inRule = rule := by
    rintro effects' hmem rfl
    rw [Setting.enter] at hmem
    split at hmem
    · rename_i k hk
      obtain ⟨hlt, hrule, -⟩ := List.findIdx?_eq_some_iff_getElem.mp hk
      simp only [List.mem_cons, List.not_mem_nil, or_false] at hmem
      refine hmem.symm.imp id fun hguard => ⟨k, s.options.recovery[k], hguard, ?_, ?_⟩
      · exact List.getElem?_eq_getElem hlt
      · exact beq_iff_eq.mp hrule
    · exact Or.inl (List.mem_singleton.mp hmem)
  rw [Setting.call] at h
  split at h
  · split at h
    · -- The rule is reported, and passed if it is nullable.
      cases hn : s.nullable rule with
      | error err => rw [hn] at h; cases h
      | ok nullable =>
          rw [hn] at h
          rw [← Except.ok.inj h] at he
          cases nullable with
          | true =>
              rcases List.mem_cons.mp he with he | he
              · exact Or.inl ⟨_, he⟩
              · exact Or.inr (Or.inr (Or.inl ⟨List.mem_singleton.mp he, Or.inl hn⟩))
          | false => exact Or.inl ⟨_, List.mem_singleton.mp he⟩
    · split at h
      · -- The table answers, with what the rule can start with.
        rename_i f htable
        rw [← Except.ok.inj h] at he
        rcases List.mem_append.mp he with he | he
        · obtain ⟨c, -, rfl⟩ := List.mem_map.mp he
          exact Or.inl ⟨c, rfl⟩
        · split at he
          · rename_i hnullable
            have hpasses : s.Passes rule := Or.inr ⟨f, htable, hnullable⟩
            exact Or.inr (Or.inr (Or.inl ⟨List.mem_singleton.mp he, hpasses⟩))
          · cases he
      · exact Or.inr ((hentered _ he (Except.ok.inj h).symm).imp id Or.inr)
  · -- In front of a token the rule is entered unless the table rules the token out.
    rw [← Except.ok.inj h] at he
    split at he
    · exact Or.inr ((hentered _ he rfl).imp id Or.inr)
    · cases he
  · exact Or.inr ((hentered _ he (Except.ok.inj h).symm).imp id Or.inr)

/-- Where a call goes on: in the rule, or behind it. -/
theorem visit_of_call {start : StateId} {rule : RuleIndex} {follow : StateId} {level : Int}
    {effects : List Effect} (h : s.call p start rule follow level = .ok effects)
    (hq : .visit q ∈ effects) :
    q = p.call start ⟨rule, some follow, level⟩ ∨ q = p.enter follow := by
  rcases effect_of_call h hq with ⟨c, hc⟩ | hvisit | ⟨hvisit, -⟩ | ⟨k, r, hguard, -⟩
  · cases hc
  · exact Or.inl (Effect.visit.inj hvisit)
  · exact Or.inr (Effect.visit.inj hvisit)
  · cases hguard

/-- What reading comes to, by what stands at the position: at the caret the symbols of the label are
put out, in front of a token the way goes on if the label admits it, and elsewhere nothing
happens. -/
theorem read_cases {target : StateId} {label : Label} {effects : List Effect}
    (h : s.read p (.read target label) = .ok effects) :
    (s.stream.lookahead p.index = some .caret ∧ ∃ set, label.symbols s.network.alphabet = .ok set ∧
      effects = set.toList.map fun t => .report ⟨.token t, [p.chain]⟩) ∨
    (∃ t, s.stream.lookahead p.index = some (.token t) ∧
      effects = if label.admits s.network.alphabet t then [.visit (p.advance target)] else []) ∨
    (s.stream.lookahead p.index = none ∧ effects = []) := by
  rw [Setting.read] at h
  split at h
  · rename_i hlook
    rw [Edge.symbols?_read] at h
    cases hset : label.symbols s.network.alphabet with
    | error cause =>
        rw [hset] at h
        cases h
    | ok set =>
        rw [hset] at h
        cases h
        exact Or.inl ⟨hlook, set, rfl, rfl⟩
  · rename_i t hlook
    cases h
    exact Or.inr (Or.inl ⟨t, hlook, rfl⟩)
  · rename_i hlook
    cases h
    exact Or.inr (Or.inr ⟨hlook, rfl⟩)

/-- What reading leads to: candidates, or the position behind a token. -/
theorem effect_of_read {target : StateId} {label : Label} {effects : List Effect}
    (h : s.read p (.read target label) = .ok effects) {e : Effect} (he : e ∈ effects) :
    (∃ c, e = .report c) ∨
      ∃ t, s.stream.lookahead p.index = some (.token t) ∧ e = .visit (p.advance target) := by
  obtain ⟨-, set, -, rfl⟩ | ⟨t, hlook, rfl⟩ | ⟨-, rfl⟩ := read_cases h
  · obtain ⟨t, -, rfl⟩ := List.mem_map.mp he
    exact Or.inl ⟨_, rfl⟩
  · split at he
    · exact Or.inr ⟨t, hlook, List.mem_singleton.mp he⟩
    · cases he
  · cases he

/-- Reading leads behind the token and nowhere else. -/
theorem visit_of_read {target : StateId} {label : Label} {effects : List Effect}
    (h : s.read p (.read target label) = .ok effects) (hq : .visit q ∈ effects) :
    q = p.advance target := by
  rcases effect_of_read h hq with ⟨c, hc⟩ | ⟨t, -, hvisit⟩
  · cases hc
  · exact Effect.visit.inj hvisit

/-- A position where no state counts as passed is coherent if its calls are. -/
theorem Position.Coherent.of_visited_eq_nil (hvisited : q.visited = [])
    (hfollow : ∀ c ∈ q.calls, ∀ f, c.follow = some f → s.network.IsFollow f) : q.Coherent s where
  passed t ht := by
    rw [hvisited] at ht
    cases ht
  reaches t ht := by
    rw [hvisited] at ht
    cases ht
  follow := hfollow

/-- A state that is entered within the rule was not passed before, or it would lead to itself. -/
theorem pass_coherent (hp : p.Coherent s) (hacc : Acc (LeadsTo s) p.bare) {t : StateId}
    (hpassed : s.network.IsPassed t) (hleads : LeadsTo s (p.pass t).bare p.bare) :
    Setting.pass p false t = [.visit (p.pass t)] ∧ (p.pass t).Coherent s := by
  -- A state that is remembered leads here. If it came next, the way would be a cycle.
  have hnot : t ∉ p.visited := by
    intro hmem
    have hback : Relation.ReflTransGen (LeadsTo s) p.bare (p.pass t).bare := hp.reaches t hmem
    have hcycle : Relation.TransGen (LeadsTo s) p.bare p.bare := .tail' hback hleads
    exact not_transGen_self_of_acc hacc hcycle
  refine ⟨if_neg hnot, ?_, ?_, hp.follow⟩
  · intro t' ht'
    rcases List.mem_cons.mp ht' with rfl | ht'
    · exact hpassed
    · exact hp.passed t' ht'
  · intro t' ht'
    rcases List.mem_cons.mp ht' with rfl | ht'
    · exact .refl
    · exact .head hleads (hp.reaches t' ht')

/-- An edge leads a coherent position to the same places as a position that remembers nothing. -/
theorem follow_coherent (ht : s.network.Tidy) (hp : p.Coherent s)
    (hacc : Acc (LeadsTo s) p.bare) {state : State} (hstate : s.network.state? p.state = some state)
    (hkind : state.kind ≠ .ruleStop) {e : Edge} (he : e ∈ state.edges) {effects : List Effect}
    (hfollow : s.follow p.bare false e = .ok effects)
    (hleads : ∀ q, .visit q ∈ effects → LeadsTo s q.bare p.bare) :
    ∃ effects', s.follow p false e = .ok effects' ∧
      effects'.map Effect.bare = effects.map Effect.bare ∧
      ∀ q, .visit q ∈ effects' → q.Coherent s := by
  -- Three kinds of edges go on within the rule, all of them in this way.
  have hpass : ∀ t : Nat, e.passes = true → e.target = t →
      Setting.pass p.bare false t = effects → ∃ effects', Setting.pass p false t = effects' ∧
        effects'.map Effect.bare = effects.map Effect.bare ∧
        ∀ q, .visit q ∈ effects' → q.Coherent s := by
    intro t hpasses htarget heffects
    have heffects' : effects = [.visit (p.bare.pass t)] :=
      heffects.symm.trans (if_neg (by simp [Position.bare]))
    have hpassed : s.network.IsPassed t := ⟨p.state, state, hstate, hkind, e, he, hpasses, htarget⟩
    obtain ⟨hvisit, hcoherent⟩ :=
      pass_coherent hp hacc hpassed (hleads (p.bare.pass t) (by simp [heffects']))
    refine ⟨_, hvisit, by rw [heffects']; rfl, ?_⟩
    intro q hq
    simp only [List.mem_singleton, Effect.visit.injEq] at hq
    rw [hq]
    exact hcoherent
  unfold Setting.follow at hfollow ⊢
  split at hfollow
  · rename_i hnone
    cases hfollow
    exact ⟨[], if_pos hnone, rfl, by simp⟩
  · rename_i hsome
    rw [if_neg hsome]
    cases e with
    | epsilon t =>
        obtain ⟨effects', heq, hrest⟩ := hpass t rfl rfl (Except.ok.inj hfollow)
        exact ⟨effects', congrArg Except.ok heq, hrest⟩
    | command t index =>
        obtain ⟨effects', heq, hrest⟩ := hpass t rfl rfl (Except.ok.inj hfollow)
        exact ⟨effects', congrArg Except.ok heq, hrest⟩
    | gate t level =>
        by_cases hlevel : level < p.level
        · refine ⟨[], congrArg Except.ok (if_pos hlevel), ?_, by simp⟩
          have hnil : effects = [] := (Except.ok.inj hfollow).symm.trans (if_pos hlevel)
          rw [hnil]
        · obtain ⟨effects', heq, hrest⟩ := hpass t rfl rfl
            ((if_neg hlevel).symm.trans (Except.ok.inj hfollow))
          exact ⟨effects', congrArg Except.ok ((if_neg hlevel).trans heq), hrest⟩
    | call t rule f level =>
        have hfollow' : s.call p t rule f level = .ok effects := hfollow
        -- Edges within a rule do not lead to the start of one, so it was not passed.
        have hnot : t ∉ p.visited := fun hmem => ht.start_unpassed rule t
          (ht.call_start p.state state hstate t rule f level he) (hp.passed t hmem)
        refine ⟨effects, (if_neg hnot).trans hfollow', rfl, ?_⟩
        intro q hq
        rcases visit_of_call hfollow' hq with rfl | rfl
        · refine .of_visited_eq_nil rfl ?_
          intro c hc f' hf'
          rcases List.mem_cons.mp hc with rfl | hc
          · cases hf'
            exact ⟨p.state, state, hstate, t, rule, level, he⟩
          · exact hp.follow c hc f' hf'
        · exact .of_visited_eq_nil rfl hp.follow
    | read t label =>
        have hfollow' : s.read p (.read t label) = .ok effects := hfollow
        refine ⟨effects, hfollow', rfl, ?_⟩
        intro q hq
        rw [visit_of_read hfollow' hq]
        exact .of_visited_eq_nil rfl hp.follow

/-- The effects of edges are those of each edge, the last one first. -/
theorem exists_of_followAll_cons {leaving : Bool} {e : Edge} {edges : List Edge}
    {effects : List Effect} (h : s.followAll p leaving (e :: edges) = .ok effects) :
    ∃ later here, s.followAll p leaving edges = .ok later ∧ s.follow p leaving e = .ok here ∧
      effects = later ++ here := by
  cases hlater : s.followAll p leaving edges with
  | error err => simp [Setting.followAll, hlater, bind, Except.bind] at h
  | ok later =>
      cases hhere : s.follow p leaving e with
      | error err => simp [Setting.followAll, hlater, hhere, bind, Except.bind] at h
      | ok here =>
          simp only [Setting.followAll, hlater, hhere, bind, Except.bind, pure, Except.pure,
            Except.ok.injEq] at h
          exact ⟨later, here, rfl, rfl, h.symm⟩

/-- Conversely, the effects of an edge come behind those of the later edges. -/
theorem followAll_cons_ok {leaving : Bool} {e : Edge} {edges : List Edge}
    {later here : List Effect} (hlater : s.followAll p leaving edges = .ok later)
    (hhere : s.follow p leaving e = .ok here) :
    s.followAll p leaving (e :: edges) = .ok (later ++ here) := by
  simp only [Setting.followAll, hlater, hhere, bind, Except.bind, pure, Except.pure]

/-- The same for several edges of the state. -/
theorem followAll_coherent (ht : s.network.Tidy) (hp : p.Coherent s)
    (hacc : Acc (LeadsTo s) p.bare) {state : State} (hstate : s.network.state? p.state = some state)
    (hkind : state.kind ≠ .ruleStop) {edges : List Edge} (hedges : ∀ e ∈ edges, e ∈ state.edges)
    {effects : List Effect} (hfollow : s.followAll p.bare false edges = .ok effects)
    (hleads : ∀ q, .visit q ∈ effects → LeadsTo s q.bare p.bare) :
    ∃ effects', s.followAll p false edges = .ok effects' ∧
      effects'.map Effect.bare = effects.map Effect.bare ∧
      ∀ q, .visit q ∈ effects' → q.Coherent s := by
  induction edges generalizing effects with
  | nil =>
      cases hfollow
      exact ⟨[], rfl, rfl, by simp⟩
  | cons e edges ih =>
      obtain ⟨later, here, hlater, hhere, rfl⟩ := exists_of_followAll_cons hfollow
      obtain ⟨later', hlater', hbare, hcoherent⟩ := ih
        (fun e' he' => hedges e' (List.mem_cons_of_mem _ he')) hlater
        (fun q hq => hleads q (List.mem_append_left _ hq))
      obtain ⟨here', hhere', hbare', hcoherent'⟩ := follow_coherent ht hp hacc hstate hkind
        (hedges e (by simp)) hhere (fun q hq => hleads q (List.mem_append_right _ hq))
      refine ⟨later' ++ here', followAll_cons_ok hlater' hhere', by simp [hbare, hbare'], ?_⟩
      intro q hq
      rcases List.mem_append.mp hq with hq | hq
      · exact hcoherent q hq
      · exact hcoherent' q hq

/-- Where a rule is left, the caller goes on. -/
theorem followAll_leaving {f : Nat} {edges : List Edge} (hf : f ∉ p.visited)
    (hlt : f < s.network.states.size) (hedges : ∀ e ∈ edges, e = .epsilon f) :
    s.followAll p true edges = .ok (edges.map fun _ => .visit (p.enter f)) := by
  induction edges with
  | nil => rfl
  | cons e edges ih =>
      have hhere : s.follow p true e = .ok [.visit (p.enter f)] := by
        rw [hedges e (by simp)]
        have hsome : ¬ (s.network.state? f).isNone = true := by
          simp [Network.state?, hlt]
        exact (if_neg hsome).trans (congrArg Except.ok (if_neg hf))
      rw [followAll_cons_ok (ih fun e' he' => hedges e' (List.mem_cons_of_mem _ he')) hhere,
        List.map_cons]
      -- All effects are the same, so their order does not matter.
      rw [List.map_const', ← List.replicate_succ', ← List.replicate_succ]

/-- Where no rule is left, all edges are followed. -/
theorem explore_inside {state : State} (hstate : s.network.state? p.state = some state)
    (hkind : state.kind ≠ .ruleStop) : s.explore p = s.followAll p false state.edges := by
  simp only [Setting.explore, hstate, if_neg hkind]

/-- At the stop state of a rule that was called, the caller goes on. -/
theorem explore_return {state : State} (hstate : s.network.state? p.state = some state)
    (hkind : state.kind = .ruleStop) {rule : RuleIndex} {f : Nat} {level : Int}
    {callers : List Call} (hcalls : p.calls = ⟨rule, some f, level⟩ :: callers)
    (hf : f ∉ p.visited) (hlt : f < s.network.states.size)
    (hedges : ∀ e ∈ state.edges.filter (fun e => e.target = f), e = .epsilon f) :
    s.explore p = .ok ((state.edges.filter fun e => e.target = f).map fun _ =>
      .visit ({ p with calls := callers }.enter f)) := by
  simp only [Setting.explore, hstate, if_pos hkind, hcalls]
  exact followAll_leaving hf hlt hedges

/-- At the stop state of the first rule the traversal may be at its end. -/
theorem explore_stop {state : State} (hstate : s.network.state? p.state = some state)
    (hkind : state.kind = .ruleStop)
    (hcalls : ∀ c callers, p.calls = c :: callers → c.follow = none) :
    s.explore p = .ok (if p.index = s.stream.caret then [.finish] else []) := by
  simp only [Setting.explore, hstate, if_pos hkind]
  split
  · rename_i rule f level callers hcase
    have := hcalls _ _ hcase
    cases this
  · rfl

/-- Exploring a coherent position has the effects of exploring it as if no state had been passed. -/
theorem explore_coherent (ht : s.network.Tidy) (hp : p.Coherent s)
    (hacc : Acc (LeadsTo s) p.bare) {effects : List Effect}
    (hexplore : s.explore p.bare = .ok effects) :
    ∃ effects', s.explore p = .ok effects' ∧ effects'.map Effect.bare = effects.map Effect.bare ∧
      ∀ q, .visit q ∈ effects' → q.Coherent s := by
  -- All that the bare position visits is reached from it in one step. The edges ask for this.
  have hleads : ∀ q, .visit q ∈ effects → LeadsTo s q.bare p.bare := by
    intro q hq
    exact ⟨effects, hexplore, List.mem_map.mpr ⟨q, mem_visits.mpr hq, rfl⟩⟩
  cases hstate : s.network.state? p.state with
  | none =>
      have hreal : s.explore p = .ok [] := by simp only [Setting.explore, hstate]
      have hbare : s.explore p.bare = .ok [] := by
        have hstate' : s.network.state? p.bare.state = none := hstate
        simp only [Setting.explore, hstate']
      cases hbare.symm.trans hexplore
      exact ⟨[], hreal, rfl, by simp⟩
  | some state =>
      have hstate' : s.network.state? p.bare.state = some state := hstate
      by_cases hkind : state.kind = .ruleStop
      · -- A rule is left. Either it is the first one, or its caller goes on.
        by_cases htop : ∀ c callers, p.calls = c :: callers → c.follow = none
        · have hbare := (explore_stop hstate' hkind htop).symm.trans hexplore
          refine ⟨effects, (explore_stop hstate hkind htop).trans hbare, rfl, ?_⟩
          intro q hq
          rw [← Except.ok.inj hbare] at hq
          split at hq
          · simp at hq
          · cases hq
        · simp only [Classical.not_forall] at htop
          obtain ⟨⟨rule, follow, level⟩, callers, hcalls, hfollow⟩ := htop
          obtain ⟨f, rfl⟩ := Option.ne_none_iff_exists'.mp hfollow
          -- The follow state was not passed, since edges within a rule do not lead there.
          have hf : s.network.IsFollow f :=
            hp.follow _ (by rw [hcalls]; exact List.mem_cons_self) f rfl
          have hnot : f ∉ p.visited := fun hmem => ht.follow_unpassed f hf (hp.passed f hmem)
          have hlt := ht.follow_lt f hf
          have hedges : ∀ e ∈ state.edges.filter (fun e => e.target = f), e = .epsilon f := by
            intro e he
            obtain ⟨hmem, htarget⟩ := List.mem_filter.mp he
            obtain ⟨t, rfl, -⟩ := ht.stop_edges p.state state hstate hkind e hmem
            have hsame : t = f := of_decide_eq_true htarget
            rw [hsame]
          have hbare := explore_return hstate' hkind hcalls (by simp [Position.bare]) hlt hedges
          cases hbare.symm.trans hexplore
          refine ⟨_, explore_return hstate hkind hcalls hnot hlt hedges, rfl, ?_⟩
          intro q hq
          obtain ⟨-, -, heq⟩ := List.mem_map.mp hq
          cases heq
          refine .of_visited_eq_nil rfl ?_
          intro c hc f' hf'
          exact hp.follow c (by rw [hcalls]; exact List.mem_cons_of_mem _ hc) f' hf'
      · rw [explore_inside hstate' hkind] at hexplore
        rw [explore_inside hstate hkind]
        exact followAll_coherent ht hp hacc hstate hkind (fun e he => he) hexplore hleads

end Coherent

/-! ### The machine -/

namespace Machine

/-- The machine with the outputs of some effects. -/
def after (m : Machine) (outs : List Effect) : Machine :=
  { m with
    found := m.found ++ (outs.filterMap Effect.candidate?).toArray
    reachedEnd := m.reachedEnd || outs.contains .finish }

/-- The machine with other work to do. -/
def withPending (m : Machine) (pending : List Task) : Machine := { m with pending }

/-- Without outputs nothing changes. -/
@[simp] theorem after_nil (m : Machine) : m.after [] = m := by
  simp [after]

/-- Outputs can be noted in two parts. -/
theorem after_append (m : Machine) (outs outs' : List Effect) :
    m.after (outs ++ outs') = (m.after outs).after outs' := by
  simp [after, List.filterMap_append, Bool.or_assoc, ← List.append_toArray]

/-- The end of the traversal is noted as the machine does it. -/
theorem after_finish (m : Machine) (outs : List Effect) :
    m.after (.finish :: outs) = (m.apply .finish).after outs := by
  simp [after, apply, List.filterMap_cons, Effect.candidate?]

/-- A report is noted as the machine does it. -/
theorem after_report (m : Machine) (c : Candidate) (outs : List Effect) :
    m.after (.report c :: outs) = (m.apply (.report c)).after outs := by
  simp [after, apply, Effect.candidate?]

/-- What comes of effects: the positions they lead to are put on the stack, and the outputs are
noted. -/
theorem foldl_apply (effects : List Effect) (hguards : ∀ e ∈ effects, e.isGuard = false)
    (m : Machine) : effects.foldl apply m =
      (m.after (outputs effects)).withPending ((visits effects).map .explore ++ m.pending) := by
  induction effects generalizing m with
  | nil => simp [withPending]
  | cons e effects ih =>
      rw [List.foldl_cons, ih (fun e' he' => hguards e' (List.mem_cons_of_mem _ he'))]
      cases e with
      | finish =>
          rw [outputs_finish, after_finish, visits_finish]
          rfl
      | report c =>
          rw [outputs_report, after_report, visits_report]
          rfl
      -- A visit goes on the stack, where later ones are put on top of it.
      | visit p => simp [apply, after, withPending]
      | guard p recovery level =>
          have := hguards (.guard p recovery level) (by simp)
          cases this

/-- One step of the machine explores the position on top of the stack. -/
theorem step_explore {s : Setting} {m : Machine} {p : Position} {rest : List Task}
    {effects : List Effect} (hpending : m.pending = .explore p :: rest)
    (hexplore : s.explore p = .ok effects) (hguards : ∀ e ∈ effects, e.isGuard = false) :
    step s m = .ok
      ((m.after (outputs effects)).withPending ((visits effects).map .explore ++ rest)) := by
  obtain ⟨pending, found, reachedEnd, stats, tried⟩ := m
  simp only at hpending
  subst hpending
  simp only [step, hexplore, foldl_apply effects hguards]
  rfl

/-- A machine with work to do runs on from its next step. -/
theorem run_succ {s : Setting} {limit : Nat} {m next : Machine} (hpending : m.pending ≠ [])
    (hstep : step s m = .ok next) : run s (limit + 1) m = run s limit next := by
  rw [run, if_neg (by simpa using hpending)]
  simp only [hstep]

/-- A machine without work is done, however many steps are allowed. -/
theorem run_done {s : Setting} {limit : Nat} {m : Machine} (hpending : m.pending = []) :
    run s limit m = .ok m := by
  rw [run.eq_def, if_pos (by simp [hpending])]

/-- A machine ends as it does after its next step. -/
theorem ends_of_step {s : Setting} {m next last : Machine} (hpending : m.pending ≠ [])
    (hstep : step s m = .ok next) (h : Ends (fun limit => run s limit next) last) :
    Ends (fun limit => run s limit m) last := by
  obtain ⟨bound, hbound⟩ := h
  refine ⟨bound + 1, fun limit hlimit => ?_⟩
  obtain ⟨limit, rfl⟩ : ∃ l, limit = l + 1 := ⟨limit - 1, by omega⟩
  show run s (limit + 1) m = _
  rw [run_succ hpending hstep]
  exact hbound limit (by omega)

end Machine

section

variable {effects effects' : List Effect}

/-- Forgetting what was passed can be done in effects or in the positions that they lead to. -/
theorem map_bare_visits (effects : List Effect) :
    (visits effects).map Position.bare = visits (effects.map Effect.bare) := by
  induction effects with
  | nil => rfl
  | cons e effects ih =>
      cases e with
      | visit p => simp [Effect.bare, ih]
      | finish => exact ih
      | report c => exact ih
      | guard p recovery level => exact ih

/-- Outputs do not depend on what was passed. -/
theorem outputs_map_bare (effects : List Effect) :
    outputs (effects.map Effect.bare) = outputs effects := by
  induction effects with
  | nil => rfl
  | cons e effects ih =>
      cases e with
      | visit p => exact ih
      | finish => simp [Effect.bare, ih]
      | report c => simp [Effect.bare, ih]
      | guard p recovery level => exact ih

/-- Neither does it whether an effect sets a guard. -/
theorem isGuard_bare (e : Effect) : e.bare.isGuard = e.isGuard := by
  cases e <;> rfl

end

/-- A machine in front of positions that can be explored to the end does come to an end, with the
same outputs. -/
theorem Settles.run {s : Setting} {qs : List Position} {outs : List Effect}
    (ht : s.network.Tidy) (h : Settles s qs outs) :
    ∀ ps : List Position, ps.map Position.bare = qs → (∀ p ∈ ps, p.Coherent s) →
      ∀ m : Machine, m.pending = ps.map .explore →
        Ends (fun limit => Machine.run s limit m) ((m.after outs).withPending []) := by
  induction h with
  | nil =>
      intro ps hps _ m hm
      rw [List.map_eq_nil_iff.mp hps] at hm
      refine ⟨0, fun limit _ => ?_⟩
      show Machine.run s limit m = .ok ((m.after []).withPending [])
      rw [Machine.run_done hm, Machine.after_nil]
      exact congrArg (fun tasks => Except.ok (m.withPending tasks)) hm
  | @cons q qs effects outs hexplore hguards hrest ih =>
      intro ps hps hcoherent m hm
      cases ps with
      | nil => cases hps
      | cons p ps =>
          rw [List.map_cons, List.cons.injEq] at hps
          obtain ⟨rfl, rfl⟩ := hps
          -- The position is explored to the end, so it is on no cycle, and what it remembers
          -- refuses nothing.
          have hacc : Acc (LeadsTo s) p.bare :=
            (Settles.cons hexplore hguards hrest).acc p.bare (by simp)
          obtain ⟨effects', hexplore', hbare, hcoherent'⟩ :=
            explore_coherent ht (hcoherent p (by simp)) hacc hexplore
          have hvisits :
              (visits effects').map Position.bare = (visits effects).map Position.bare := by
            rw [map_bare_visits, map_bare_visits, hbare]
          have houtputs : outputs effects' = outputs effects := by
            rw [← outputs_map_bare, hbare, outputs_map_bare]
          have hguards' : ∀ e ∈ effects', e.isGuard = false := by
            intro e he
            have hmem : e.bare ∈ effects.map Effect.bare := hbare ▸ List.mem_map_of_mem he
            obtain ⟨e', he', heq⟩ := List.mem_map.mp hmem
            rw [← isGuard_bare, ← heq, isGuard_bare]
            exact hguards e' he'
          -- One step puts what the position leads to on the stack. The rest is the induction.
          have hstep := Machine.step_explore hm hexplore' hguards'
          have hends := ih (visits effects' ++ ps)
            (by rw [List.map_append, hvisits])
            (fun p' hp' => by
              rcases List.mem_append.mp hp' with hp' | hp'
              · exact hcoherent' p' (mem_visits.mp hp')
              · exact hcoherent p' (List.mem_cons_of_mem _ hp'))
            ((m.after (outputs effects')).withPending
              ((visits effects').map .explore ++ ps.map .explore))
            (by rw [List.map_append]; rfl)
          have hlast := Machine.ends_of_step (by rw [hm]; simp) hstep hends
          rw [houtputs] at hlast
          rw [Machine.after_append]
          exact hlast

end Caret
