import Mathlib
import Caret.Proofs.Comparison
import Caret.Proofs.Jumps
import Caret.Proofs.Ownership

/-!
# `Caret.Proofs.CallStack`: the calls that are open at a position

At every position that a machine keeps on its stack the open calls fit the network: the state
belongs to the rule of the innermost call, each caller goes on at a state of its own rule, and the
first rule, which was entered at level zero, has no caller (`Network.Stacked`). A machine creates
positions in six ways: at the start, along an edge, behind a token, in a called rule, behind a rule
that is passed, and where a recovery rule goes on. Each of them keeps the invariant
(`Effect.framed_of_explore`, `Position.Framed.resume`), so it holds throughout a run
(`Machine.Reaches.framed`).

The chain of a candidate is read off such a stack, so it begins with the first rule of the
traversal. The relation `R` between a caller and the rule it calls is a parameter. It holds of
consecutive rules of a chain if it holds of the calls of the network and of the jumps that recovery
made. `call_stack_invariant` uses it with the calls of the grammar as it is written, for runs in
which recovery did not enter a rule.
-/

set_option autoImplicit false

namespace Caret

/-! ### Chains -/

/-- The chain begins with the rule `r`, and `R` holds of rules that follow each other in it. -/
structure Rooted (R : RuleIndex → RuleIndex → Prop) (r : RuleIndex) (chain : Chain) : Prop where
  head : chain.head? = some r
  linked : chain.IsChain R

section

variable {R : RuleIndex → RuleIndex → Prop} {r callee : RuleIndex} {outer inner chain : Chain}

/-- A chain can be continued by the beginning of a chain of a rule that its last rule may call. -/
theorem Rooted.append (h : Rooted R r outer) (hlast : ∀ x ∈ outer.getLast?, R x callee)
    (hinner : inner <+: chain) (hchain : Rooted R callee chain) : Rooted R r (outer ++ inner) where
  head := by
    cases outer with
    | nil => cases h.head
    | cons x outer => exact h.head
  linked := by
    refine List.isChain_append.mpr ⟨h.linked, hchain.linked.prefix hinner, ?_⟩
    intro x hx y hy
    -- The inner chain is empty or begins with the called rule.
    obtain ⟨rest, rfl⟩ := hinner
    cases inner with
    | nil => cases hy
    | cons z inner =>
        cases hy
        cases hchain.head
        exact hlast x hx

end

/-! ### Stacks -/

/-- The calls fit a state at which they are open: the state belongs to the innermost rule, each
caller goes on at a state of its own rule, and the first rule is `r`. Callers and the rules they
call are related by `R`. -/
inductive Network.Stacked (n : Network) (R : RuleIndex → RuleIndex → Prop) (r : RuleIndex) :
    Nat → List Call → Prop where
  | first {a : Nat} : n.Belongs r a → Stacked n R r a [⟨r, none, 0⟩]
  | call {a f : Nat} {caller callee : RuleIndex} {level : Int} {calls : List Call} :
      n.Belongs callee a → Stacked n R r f calls → n.Belongs caller f → R caller callee →
        Stacked n R r a (⟨callee, some f, level⟩ :: calls)

namespace Network.Stacked

variable {n : Network} {R : RuleIndex → RuleIndex → Prop} {r : RuleIndex} {a b : Nat}
  {calls : List Call}

/-- A state may take the place of one that belongs to the same rule. -/
theorem move (h : n.Stacked R r a calls) (hab : ∀ rule, n.Belongs rule a → n.Belongs rule b) :
    n.Stacked R r b calls := by
  cases h with
  | first ha => exact .first (hab _ ha)
  | call ha hrest hcaller hR => exact .call (hab _ ha) hrest hcaller hR

/-- The state belongs to the rule of the innermost call. -/
theorem belongs (h : n.Stacked R r a calls) : ∀ c ∈ calls.head?, n.Belongs c.rule a := by
  intro c hc
  cases h with
  | first ha =>
      cases hc
      exact ha
  | call ha _ _ _ =>
      cases hc
      exact ha

/-- So it belongs to some rule. -/
theorem exists_belongs (h : n.Stacked R r a calls) : ∃ rule, n.Belongs rule a := by
  cases h with
  | first ha => exact ⟨_, ha⟩
  | call ha _ _ _ => exact ⟨_, ha⟩

/-- The last rule of the chain is the one that the state belongs to. -/
theorem belongs_getLast (h : n.Stacked R r a calls) :
    ∀ x ∈ ((calls.map Call.rule).reverse).getLast?, n.Belongs x a := by
  intro x hx
  rw [List.getLast?_reverse, List.head?_map] at hx
  obtain ⟨c, hc, rfl⟩ := Option.map_eq_some_iff.mp hx
  exact h.belongs c hc

/-- The rules of the calls, outermost first, are a chain from the first rule. Each of them is
related to the next one because the caller of a call is the rule below it. -/
theorem rooted (h : n.Stacked R r a calls) : Rooted R r (calls.map Call.rule).reverse := by
  induction h with
  | first _ => exact ⟨rfl, .singleton _⟩
  | @call a f caller callee level calls ha hrest hcaller hR ih =>
      rw [List.map_cons, List.reverse_cons]
      have hcallee : Rooted R callee [callee] := ⟨rfl, .singleton _⟩
      refine ih.append ?_ (List.prefix_refl _) hcallee
      intro x hx
      rw [(hrest.belongs_getLast x hx).unique hcaller]
      exact hR

end Network.Stacked

/-! ### What is put out -/

/-- Cutting a finding keeps a beginning of its chain, and puts no rule in the place of a token but
one that is to be reported. -/
theorem FirstTokens.cut_spec (reported : List RuleIndex) (id : SuggestionId) (chain : Chain) :
    (cut reported id chain).2 <+: chain ∧
      ∀ i, (cut reported id chain).1 = .rule i → id = .rule i ∨ i ∈ reported := by
  cases id with
  | rule i => exact ⟨List.prefix_refl _, fun i hi => Or.inl hi⟩
  | token t =>
      rcases cut_token reported t chain with hcut | ⟨i, r, -, hr, hcut⟩
      · rw [hcut]
        exact ⟨List.prefix_refl _, fun i hi => by cases hi⟩
      · rw [hcut]
        refine ⟨List.take_prefix _ _, fun i hi => ?_⟩
        cases hi
        exact Or.inr hr

section

variable {s : Setting} {p : Position} {effects : List Effect}

/-- What reading puts out are tokens, in the chain of the position. -/
theorem report_of_read {target : StateId} {label : Label}
    (h : s.read p (.read target label) = .ok effects) {c : Candidate}
    (hc : .report c ∈ effects) : ∃ t, c = ⟨.token t, [p.chain]⟩ := by
  obtain ⟨-, set, -, rfl⟩ | ⟨a, -, rfl⟩ | ⟨-, rfl⟩ := read_cases h
  · obtain ⟨t, -, ht⟩ := List.mem_map.mp hc
    cases ht
    exact ⟨t, rfl⟩
  · split at hc
    · simp at hc
    · cases hc
  · cases hc

/-- What a call puts out: the rule itself if it is to be reported, or what the table holds for it,
cut at the rules that are to be reported. -/
theorem report_of_call {start : StateId} {rule : RuleIndex} {follow : StateId} {level : Int}
    (h : s.call p start rule follow level = .ok effects) {c : Candidate}
    (hc : .report c ∈ effects) :
    (rule ∈ s.options.reported ∧ c = ⟨.rule rule, [p.chain]⟩) ∨
      ∃ f entry id chain, s.options.firstTokens = some f ∧ f.entry? rule = some entry ∧
        (id, chain) ∈ findings entry.candidates ∧
        c = ⟨(FirstTokens.cut s.options.reported id chain).1,
          [p.chain ++ (FirstTokens.cut s.options.reported id chain).2]⟩ := by
  -- Entering a rule puts nothing out.
  have henter : ¬ Effect.report c ∈ s.enter p start rule follow level := by
    rw [Setting.enter]
    split <;> simp
  rw [Setting.call] at h
  -- At the caret the call may be answered by a report or from the table. In front of a token the
  -- rule is entered or not, but nothing is put out.
  split at h
  · split at h
    · rename_i hreported
      cases hn : s.nullable rule with
      | error halt =>
          rw [hn] at h
          cases h
      | ok nullable =>
          rw [hn] at h
          rw [← Except.ok.inj h] at hc
          refine Or.inl ⟨hreported, ?_⟩
          cases nullable <;> simpa using hc
    · split at h
      · rename_i f hf
        rw [← Except.ok.inj h] at hc
        rcases List.mem_append.mp hc with hc | hc
        · obtain ⟨c', hc', heq⟩ := List.mem_map.mp hc
          cases heq
          rw [FirstTokens.splice] at hc'
          split at hc'
          · cases hc'
          · rename_i entry hentry
            obtain ⟨d, hd, hc'⟩ := List.mem_flatMap.mp hc'
            obtain ⟨chain, hchain, rfl⟩ := List.mem_map.mp hc'
            exact Or.inr ⟨f, entry, d.id, chain, hf, hentry, List.mem_flatMap.mpr
              ⟨d, hd, List.mem_map.mpr ⟨chain, hchain, rfl⟩⟩, rfl⟩
        · split at hc <;> simp at hc
      · exact absurd (Except.ok.inj h ▸ hc) henter
  · rw [← Except.ok.inj h] at hc
    split at hc
    · exact absurd hc henter
    · cases hc
  · exact absurd (Except.ok.inj h ▸ hc) henter

end

/-- The chain of a finding begins with the rule `r` and is linked by `R`, and a rule that was found
is one that is to be reported. -/
structure Finding.Framed (R : RuleIndex → RuleIndex → Prop) (r : RuleIndex)
    (reported : List RuleIndex) (x : Finding) : Prop where
  rooted : Rooted R r x.2
  reported : ∀ i, x.1 = .rule i → i ∈ reported

/-- The findings in the entry of a rule are framed by the rule. -/
def FirstTokens.Framed (f : FirstTokens) (R : RuleIndex → RuleIndex → Prop) : Prop :=
  ∀ rule entry, f.entry? rule = some entry →
    ∀ x ∈ findings entry.candidates, Finding.Framed R rule [] x

/-! ### Steps -/

/-- An edge of a rule calls only rules that the rule is related to. -/
def CallsOnly (R : RuleIndex → RuleIndex → Prop) (rule : RuleIndex) : Edge → Prop
  | .call _ callee _ _ => R rule callee
  | _ => True

/-- Less may be asked of the edges. -/
theorem Network.Owned.imp {n : Network} {P Q : RuleIndex → Edge → Prop} (h : n.Owned P)
    (himp : ∀ r e, P r e → Q r e) : n.Owned Q :=
  ⟨h.start, h.stop, fun a s hs hkind e he =>
    ⟨(h.edges a s hs hkind e he).1, himp _ _ (h.edges a s hs hkind e he).2⟩⟩

/-- The network calls only related rules, and so do the chains in the table of first tokens. -/
structure Setting.Framed (s : Setting) (R : RuleIndex → RuleIndex → Prop) : Prop where
  tidy : s.network.Tidy
  owned : s.network.Owned (CallsOnly R)
  table : ∀ f, s.options.firstTokens = some f → f.Framed R

/-- The open calls fit the state, and no more tokens are read than there are. -/
structure Position.Framed (s : Setting) (R : RuleIndex → RuleIndex → Prop) (r : RuleIndex)
    (p : Position) : Prop where
  stacked : s.network.Stacked R r p.state p.calls
  index_le : p.index ≤ s.stream.caret

/-- The position that a task is about. -/
def Task.position : Task → Position
  | .explore p => p
  | .watch p _ => p

/-- What comes of exploring is framed. -/
def Effect.Framed (s : Setting) (R : RuleIndex → RuleIndex → Prop) (r : RuleIndex) : Effect → Prop
  | .finish => True
  | .report c => ∃ x : Finding, c = x.candidate ∧ x.Framed R r s.options.reported
  | .visit p => p.Framed s R r
  | .guard p _ _ => p.Framed s R r

section

variable {s : Setting} {R : RuleIndex → RuleIndex → Prop} {r : RuleIndex} {p q : Position}
  {e : Edge} {leaving : Bool}

/-- Along an edge that leads on, the calls fit the target. For a call they fit the state where the
caller goes on, and the caller and the called rule are related. -/
theorem Position.Framed.departs (hs : s.Framed R) (hp : p.Framed s R r)
    (h : p.Departs s.network e q leaving) :
    q.index = p.index ∧ (e.isCall = false → s.network.Stacked R r e.target q.calls) ∧
      ∀ t callee f level, e = .call t callee f level → s.network.Stacked R r f q.calls ∧
        s.network.start? callee = some t ∧ ∀ caller, s.network.Belongs caller f →
          R caller callee := by
  cases h with
  | @inside state _ hstate hkind he =>
      obtain ⟨hkeeps, hcalls⟩ := hs.owned.edges _ _ hstate hkind e he
      -- The state belongs to one rule only, so the innermost call is one of that rule.
      have hmove : ∀ {b : Nat}, s.network.Belongs state.rule b →
          s.network.Stacked R r b p.calls := by
        intro b hb
        refine hp.stacked.move fun rule hrule => ?_
        rw [hrule.unique ⟨state, hstate, rfl⟩]
        exact hb
      refine ⟨rfl, fun hcall => ?_, ?_⟩
      · cases e with
        | call t callee f level => cases hcall
        | _ => exact hmove hkeeps
      · rintro t callee f level rfl
        refine ⟨hmove hkeeps, hs.tidy.call_start _ _ hstate _ _ _ _ he, ?_⟩
        intro caller hcaller
        rw [hcaller.unique hkeeps]
        exact hcalls
  | @leaving state _ rule f level callers hstate hkind hcalls he htarget =>
      -- A stop state has no edges but those that return, and this one returns to the caller.
      obtain ⟨t, rfl, -⟩ := hs.tidy.stop_edges _ _ hstate hkind e he
      have hstacked := hp.stacked
      rw [hcalls] at hstacked
      cases hstacked with
      | call _ hrest _ _ =>
          refine ⟨rfl, fun _ => ?_, fun _ _ _ _ hcall => by cases hcall⟩
          rw [htarget]
          exact hrest

/-- Exploring a framed position leads to framed positions and framed findings. The cases are the
ways in which an edge can have an effect. -/
theorem Effect.framed_of_explore (hs : s.Framed R) (hp : p.Framed s R r) {effects : List Effect}
    (h : s.explore p = .ok effects) : ∀ x ∈ effects, x.Framed s R r := by
  intro x hx
  rcases exists_departs_of_mem h hx with ⟨rfl, -⟩ | ⟨e, q, leaving, here, hdeparts, hhere, hx⟩
  · trivial
  obtain ⟨hindex, htarget, hcall⟩ := hp.departs hs hdeparts
  have hle : q.index ≤ s.stream.caret := hindex ▸ hp.index_le
  rcases effect_of_follow hhere hx with
      ⟨hpasses, -, -, rfl⟩ | ⟨t, rule, f, level, rfl, -, hcalled⟩ | ⟨t, label, rfl, hread⟩
  · -- An edge that passes is no call.
    have hcall' : e.isCall = false := by
      cases e with
      | call _ _ _ _ => cases hpasses
      | _ => rfl
    have hstacked := htarget hcall'
    cases leaving
    · exact ⟨hstacked, hle⟩
    · exact ⟨hstacked, hle⟩
  · obtain ⟨hstacked, hstart, hR⟩ := hcall t rule f level rfl
    obtain ⟨caller, hcaller⟩ := hstacked.exists_belongs
    rcases effect_of_call hcalled hx with ⟨c, rfl⟩ | rfl | ⟨rfl, -⟩ | ⟨k, r', rfl, -⟩
    · -- Whatever goes behind the chain of the caller begins with the called rule.
      have hlast : ∀ x ∈ q.chain.getLast?, R x rule := fun x hx =>
        hR x (hstacked.belongs_getLast x hx)
      rcases report_of_call hcalled hx with ⟨hreported, rfl⟩ |
          ⟨f', entry, id, chain, hf', hentry, hfound, rfl⟩
      · refine ⟨(.rule rule, q.chain), rfl, hstacked.rooted, ?_⟩
        intro i hi
        cases hi
        exact hreported
      · -- The table holds chains that begin with the called rule. They are cut, and go behind the
        -- chain of the caller.
        obtain ⟨hrooted, htoken⟩ := hs.table f' hf' rule entry hentry _ hfound
        obtain ⟨hkept, hid⟩ := FirstTokens.cut_spec s.options.reported id chain
        refine ⟨(_, _), rfl, hstacked.rooted.append hlast hkept hrooted, ?_⟩
        intro i hi
        rcases hid i hi with hid | hi'
        · cases htoken i hid
        · exact hi'
    · exact ⟨.call (hs.owned.start rule t hstart) hstacked hcaller (hR caller hcaller), hle⟩
    · exact ⟨hstacked, hle⟩
    · exact ⟨hstacked, hle⟩
  · have hstacked := htarget rfl
    rcases effect_of_read hread hx with ⟨c, rfl⟩ | ⟨a, hlook, rfl⟩
    · obtain ⟨a, rfl⟩ := report_of_read hread hx
      exact ⟨(.token a, q.chain), rfl, hstacked.rooted, fun i hi => by cases hi⟩
    · -- A token stands at the position, so the caret is further on.
      refine ⟨hstacked, ?_⟩
      show q.index + 1 ≤ s.stream.tokens.size
      simp only [TokenStream.lookahead] at hlook
      split at hlook
      · rename_i hget
        have hlt := (Array.getElem?_eq_some_iff.mp hget).1
        omega
      · split at hlook <;> cases hlook

end

/-- A checked sum that is there is the sum. -/
theorem natAdd_eq_ok {max a b c : Nat} (h : natAdd max a b = .ok c) : c = a + b := by
  rw [natAdd] at h
  split at h
  · exact (Except.ok.inj h).symm
  · cases h

/-- Behind text that does not fit, the rule that failed is passed in place, or the target of the
recovery rule is entered as a rule that its caller calls. Either is one more recovery. -/
theorem Setting.resume_place {s : Setting} {p q : Position} {g : Guard} {x : RecoveryRule}
    (h : s.resume p g x = .ok (some q)) : q.recoveries = p.recoveries + 1 ∧
      ((q.state = p.state ∧ q.calls = p.calls) ∨
        ∃ callee, x.target = .goToRule callee ∧ s.network.start? callee = some q.state ∧
          q.calls = ⟨callee, some p.state, g.level⟩ :: p.calls) := by
  rw [resume] at h
  obtain ⟨found?, -, h⟩ := exists_of_bind_ok h
  cases found? with
  | none => cases h
  | some found =>
      -- Both targets count one more recovery. They differ in the state and in the calls.
      cases htarget : x.target with
      | finishRule =>
          simp only [htarget] at h
          obtain ⟨recoveries, hadd, h⟩ := exists_of_bind_ok h
          cases h
          exact ⟨natAdd_eq_ok hadd, Or.inl ⟨rfl, rfl⟩⟩
      | goToRule callee =>
          cases hstart : s.network.start? callee with
          | none =>
              simp only [htarget, hstart] at h
              cases h
          | some start =>
              simp only [htarget, hstart] at h
              obtain ⟨recoveries, hadd, h⟩ := exists_of_bind_ok h
              cases h
              exact ⟨natAdd_eq_ok hadd, Or.inr ⟨callee, rfl, hstart, rfl⟩⟩

/-- Where a recovery rule goes on, the calls fit again, if its target may be called there. -/
theorem Position.Framed.resume {s : Setting} {R : RuleIndex → RuleIndex → Prop} {r : RuleIndex}
    {p q : Position} {g : Guard} {x : RecoveryRule} (hs : s.Framed R) (hp : p.Framed s R r)
    (h : s.resume p g x = .ok (some q))
    (hjump : ∀ callee, x.target = .goToRule callee → (s.network.start? callee).isSome →
      ∀ caller, R caller callee) : q.Framed s R r := by
  constructor
  · -- The rule is passed where it stands, or another one is entered in its place.
    rcases (s.resume_place h).2 with ⟨hstate, hcalls⟩ | ⟨callee, htarget, hstart, hcalls⟩
    · rw [hstate, hcalls]
      exact hp.stacked
    · obtain ⟨caller, hcaller⟩ := hp.stacked.exists_belongs
      have hR := hjump callee htarget (hstart ▸ rfl) caller
      rw [hcalls]
      exact .call (hs.owned.start callee q.state hstart) hp.stacked hcaller hR
  · -- The token was found in front of the caret, and at most one token is passed over.
    obtain ⟨-, ⟨found, hfound, hindex⟩, -⟩ := Setting.resume_eq_some h
    have hlt := (TokenStream.findAfter?_eq_some hfound).2
    rw [hindex]
    split <;> omega

/-! ### Runs -/

/-- All positions on the stack and all that was found are framed. -/
structure Machine.Framed (s : Setting) (R : RuleIndex → RuleIndex → Prop) (r : RuleIndex)
    (m : Machine) : Prop where
  pending : ∀ t ∈ m.pending, t.position.Framed s R r
  found : ∀ c ∈ m.found.toList, ∃ x : Finding, c = x.candidate ∧ x.Framed R r s.options.reported

namespace Machine

variable {s : Setting} {R : RuleIndex → RuleIndex → Prop} {r : RuleIndex} {m m' : Machine}

/-- Taking a task off the stack keeps the invariant. -/
theorem Framed.withPending (h : m.Framed s R r) {t : Task} {rest : List Task}
    (hpending : m.pending = t :: rest) : (m.withPending rest).Framed s R r where
  pending t ht := h.pending t (hpending ▸ List.mem_cons_of_mem _ ht)
  found := h.found

/-- So does one effect, if what it puts on the stack or finds is framed. -/
theorem Framed.apply (h : m.Framed s R r) {e : Effect} (he : e.Framed s R r) :
    (m.apply e).Framed s R r := by
  cases e with
  | finish => exact ⟨h.pending, h.found⟩
  | report c =>
      refine ⟨h.pending, fun d hd => ?_⟩
      rw [Machine.apply, Array.toList_push] at hd
      -- What was found before is followed by what is found now.
      rcases List.mem_append.mp hd with hd | hd
      · exact h.found d hd
      · rw [List.mem_singleton.mp hd]
        exact he
  | visit p =>
      refine ⟨fun t ht => ?_, h.found⟩
      rcases List.mem_cons.mp ht with rfl | ht
      · exact he
      · exact h.pending t ht
  | guard p recovery level =>
      refine ⟨fun t ht => ?_, h.found⟩
      rcases List.mem_cons.mp ht with rfl | ht
      · exact he
      · exact h.pending t ht

/-- So do several effects one after the other. -/
theorem Framed.foldl_apply {effects : List Effect} (h : m.Framed s R r)
    (heffects : ∀ e ∈ effects, e.Framed s R r) : (effects.foldl Machine.apply m).Framed s R r := by
  induction effects generalizing m with
  | nil => exact h
  | cons e effects ih =>
      obtain ⟨he, heffects⟩ := List.forall_mem_cons.mp heffects
      exact ih (h.apply he) heffects

/-- A step counts a recovery rule or leaves the statistics as they are. -/
theorem Next.attempts_le (h : Next s m m') (x : RecoveryRule) :
    m.stats.attempts x ≤ m'.stats.attempts x := by
  cases h.advance with
  | explore _ _ =>
      rw [(foldl_apply_stats _ _).1]
      exact Nat.le_refl _
  | drop _ _ => exact Nat.le_refl _
  | jump _ _ _ _ _ _ =>
      rw [RecoveryStats.attempts_record]
      exact Nat.le_add_right _ _

/-- The rules that recovery has entered may be called from everywhere. -/
def JumpsWithin (s : Setting) (R : RuleIndex → RuleIndex → Prop) (m : Machine) : Prop :=
  ∀ x ∈ s.options.recovery, ∀ callee, x.target = .goToRule callee → m.stats.attempts x ≠ 0 →
    (s.network.start? callee).isSome → ∀ caller, R caller callee

/-- One step of a machine keeps the invariant. Where it jumps to a rule by recovery, the rule has to
be one that may be called from everywhere. -/
theorem Next.framed (hs : s.Framed R) (h : Next s m m') (hm : m.Framed s R r)
    (hjumps : m'.JumpsWithin s R) : m'.Framed s R r := by
  -- A step explores a position, drops a guard that is not needed, or jumps from a guard.
  cases h.advance with
  | @explore p rest effects hpending hexplore =>
      have hp : p.Framed s R r := hm.pending (.explore p) (hpending ▸ List.mem_cons_self)
      exact (hm.withPending hpending).foldl_apply (Effect.framed_of_explore hs hp hexplore)
  | drop hpending _ => exact ⟨(hm.withPending hpending).pending, hm.found⟩
  | @jump p q g rest x hpending hx _ _ _ hresume =>
      have hp : p.Framed s R r := hm.pending (.watch p g) (hpending ▸ List.mem_cons_self)
      have hq : q.Framed s R r := by
        refine hp.resume hs hresume fun callee htarget hstart => ?_
        -- The step itself has counted the rule.
        refine hjumps x (List.mem_of_getElem? hx) callee htarget ?_ hstart
        rw [RecoveryStats.attempts_record, if_pos rfl]
        exact Nat.succ_ne_zero _
      refine ⟨fun t ht => ?_, hm.found⟩
      rcases List.mem_cons.mp ht with rfl | ht
      · exact hq
      · exact (hm.withPending hpending).pending t ht

/-- At the start there is one call without a caller. -/
theorem framed_start (hs : s.Framed R) {start : StateId}
    (hstart : s.network.start? r = some start) :
    (Machine.start r start).Framed s R r := by
  refine ⟨fun t ht => ?_, fun c hc => by cases hc⟩
  rw [List.mem_singleton.mp ht]
  exact ⟨.first (hs.owned.start r start hstart), Nat.zero_le _⟩

/-- The invariant holds throughout a run. -/
theorem Reaches.framed (hs : s.Framed R) {start : StateId}
    (hstart : s.network.start? r = some start) (h : Reaches s (.start r start) m)
    (hjumps : m.JumpsWithin s R) : m.Framed s R r := by
  induction h with
  | refl => exact framed_start hs hstart
  | @tail m m' _ hnext ih =>
      -- What was counted before is still counted.
      have hbefore : m.JumpsWithin s R := fun x hx callee htarget hused =>
        hjumps x hx callee htarget fun hnone =>
          hused (Nat.le_zero.mp (hnone ▸ hnext.attempts_le x))
      exact hnext.framed hs (ih hbefore) hjumps

end Machine

/-! ### Traversals and tables -/

/-- What a traversal finds is framed, if recovery may enter its targets from everywhere. -/
theorem Traversal.framed_of_run {s : Setting} {R : RuleIndex → RuleIndex → Prop} (hs : s.Framed R)
    (hjumps : ∀ m : Machine, m.JumpsWithin s R) {limit : Nat} {r : RuleIndex} {T : Traversal}
    (h : Traversal.run s limit r = .ok T) :
    ∃ xs : List Finding, T.found = xs.map Finding.candidate ∧
      ∀ x ∈ xs, x.Framed R r s.options.reported := by
  cases hstart : s.network.start? r with
  | none =>
      simp only [run, hstart, Except.ok.injEq] at h
      rw [← h]
      exact ⟨[], rfl, by simp⟩
  | some start =>
      obtain ⟨last, hrun, rfl⟩ := exists_run hstart h
      have hlast := (Machine.reaches_of_run hrun).1.framed hs hstart (hjumps last)
      -- For each candidate one finding is chosen. The default is never used, but some finding is
      -- needed to write the choice down.
      have hsome : Nonempty Finding := ⟨(.token 0, [])⟩
      choose! found hfound using hlast.found
      refine ⟨last.found.toList.map found, ?_, ?_⟩
      · rw [List.map_map]
        exact (List.map_id _).symm.trans (List.map_congr_left fun c hc => (hfound c hc).1)
      · intro x hx
        obtain ⟨c, hc, rfl⟩ := List.mem_map.mp hx
        exact (hfound c hc).2

/-- A result at some position is that of the element at this position. -/
theorem exists_of_mapM_getElem? {ε α β : Type} {f : α → Except ε β} {xs : List α} {ys : List β}
    (h : xs.mapM f = .ok ys) {i : Nat} {y : β} (hy : ys[i]? = some y) :
    ∃ x, xs[i]? = some x ∧ f x = .ok y := by
  induction xs generalizing ys i with
  | nil =>
      rw [List.mapM_nil] at h
      cases h
      cases hy
  | cons x xs ih =>
      rw [List.mapM_cons] at h
      obtain ⟨y', hx, h⟩ := exists_of_bind_ok h
      obtain ⟨ys', hxs, h⟩ := exists_of_bind_ok h
      cases h
      cases i with
      | zero =>
          cases hy
          exact ⟨x, rfl, hx⟩
      | succ i => exact ih hxs hy

/-- An entry of the table is made by the traversal of its rule in front of the caret. -/
theorem FirstTokens.exists_atStart {n : Network} {limit : Nat} {f : FirstTokens}
    (h : FirstTokens.ofNetwork n limit = .ok f) {rule : RuleIndex} {entry : RuleStart}
    (hentry : f.entry? rule = some entry) :
    ∃ T, Traversal.atStart n limit rule = .ok T ∧ entry = ⟨merge T.found, T.reachedEnd⟩ := by
  obtain ⟨entries, hentries, h⟩ := exists_of_bind_ok h
  cases h
  rw [FirstTokens.entry?, List.getElem?_toArray] at hentry
  obtain ⟨rule', hrule', hentry⟩ := exists_of_mapM_getElem? hentries hentry
  obtain ⟨T, hT, hentry⟩ := exists_of_bind_ok hentry
  cases hentry
  obtain ⟨hlt, rfl⟩ := List.getElem?_eq_some_iff.mp hrule'
  rw [List.getElem_range] at hT
  exact ⟨T, hT, rfl⟩

/-- A table is filled by traversals without recovery and without a table. What they find is framed,
and joining neither adds nor loses findings. -/
theorem FirstTokens.framed_of_ofNetwork {n : Network} {R : RuleIndex → RuleIndex → Prop}
    (htidy : n.Tidy) (howned : n.Owned (CallsOnly R)) {limit : Nat} {f : FirstTokens}
    (h : FirstTokens.ofNetwork n limit = .ok f) : f.Framed R := by
  intro rule entry hentry x hx
  obtain ⟨T, hT, rfl⟩ := exists_atStart h hentry
  obtain ⟨xs, hxs, hframed⟩ := Traversal.framed_of_run ⟨htidy, howned, fun f hf => by cases hf⟩
    (fun m x hx => by cases hx) hT
  rw [hxs, mem_findings_merge] at hx
  exact hframed x hx

/-- A table that may be used with a network: none, the one without entries, or the one that is made
from the network. -/
def Network.HasTable (n : Network) : Option FirstTokens → Prop
  | none => True
  | some f => f = .empty ∨ ∃ limit, FirstTokens.ofNetwork n limit = .ok f

/-- The calls of a grammar frame every traversal of its network. -/
theorem Source.framed_of_build {source : Source} {g : Grammar} (h : source.build = .ok g)
    (hsize : source.numbering.size < 2 ^ 31 - 2) {R : RuleIndex → RuleIndex → Prop}
    (hR : ∀ caller callee, source.Calls caller callee → R caller callee) {s : Setting}
    (hs : s.network = g.recognizer.network)
    (htable : g.recognizer.network.HasTable s.options.firstTokens) : s.Framed R := by
  have htidy := (Source.realizes_of_build h hsize).tidy
  have howned : g.recognizer.network.Owned (CallsOnly R) := by
    refine (Source.owned_of_build h).imp fun rule e he => ?_
    cases e with
    | call t callee f level => exact hR rule callee he.1
    | _ => trivial
  refine ⟨hs ▸ htidy, hs ▸ howned, fun f hf => ?_⟩
  rw [hf] at htable
  -- An empty table holds no chains.
  rcases htable with rfl | ⟨limit, hlimit⟩
  · intro rule entry hentry
    cases hentry
  · exact FirstTokens.framed_of_ofNetwork htidy howned hlimit

/-! ### The invariant -/

namespace Network.Stacked

variable {n : Network} {R : RuleIndex → RuleIndex → Prop} {r : RuleIndex} {a : Nat}
  {calls : List Call}

/-- There always is a call: the first rule is never left. -/
theorem ne_nil (h : n.Stacked R r a calls) : calls ≠ [] := by
  cases h <;> simp

/-- The outermost call is that of the first rule. -/
theorem getLast?_eq (h : n.Stacked R r a calls) : calls.getLast? = some ⟨r, none, 0⟩ := by
  induction h with
  | first _ => rfl
  | call _ hrest _ _ ih =>
      rw [List.getLast?_cons_of_ne_nil hrest.ne_nil]
      exact ih

/-- All other calls return somewhere. -/
theorem follow_ne_none (h : n.Stacked R r a calls) : ∀ c ∈ calls.dropLast, c.follow ≠ none := by
  induction h with
  | first _ => simp
  | call _ hrest _ _ ih =>
      rw [List.dropLast_cons_of_ne_nil hrest.ne_nil]
      simpa using ih

/-- Each call returns to a state of the rule below it. -/
theorem isChain_returns (h : n.Stacked R r a calls) :
    calls.IsChain fun c below => ∀ f ∈ c.follow, n.Belongs below.rule f := by
  induction h with
  | first _ => exact .singleton _
  | @call a f caller callee level calls _ hrest _ _ ih =>
      refine List.isChain_cons.mpr ⟨fun below hbelow f' hf' => ?_, ih⟩
      cases hf'
      exact hrest.belongs below hbelow

end Network.Stacked

/-- Up to the caret something stands at every position, a token or the caret itself. -/
theorem TokenStream.lookahead_ne_none {stream : TokenStream} {index : Nat}
    (h : index ≤ stream.caret) : stream.lookahead index ≠ none := by
  rw [lookahead]
  split
  · simp
  · rename_i hget
    have hle := Array.getElem?_eq_none_iff.mp hget
    rw [if_pos (show index = stream.caret from Nat.le_antisymm h hle)]
    simp

/-- In every run of the network of a grammar, with any recovery rules and any table, a position on
the stack is not behind the caret, so that something stands there. Its calls end with the first
rule, which has no caller and level zero, and all others have a caller. Its state belongs to the
innermost rule, and each call returns to a state of the rule below it. What was found has one chain,
which begins with the first rule. If recovery has not entered a rule, the rules that follow each
other in the chain are caller and called rule in the grammar as it is written. -/
theorem call_stack_invariant {source : Source} {g : Grammar} (h : source.build = .ok g)
    (hsize : source.numbering.size < 2 ^ 31 - 2) {w : List TokenType} {options : Options}
    (htable : g.recognizer.network.HasTable options.firstTokens) {limit : Nat} {r : RuleIndex}
    {start : StateId} (hstart : g.recognizer.network.start? r = some start) {m : Machine}
    (hm : Machine.Reaches (.ofOptions g.recognizer.network ⟨w.toArray⟩ options limit)
      (.start r start) m) :
    (∀ t ∈ m.pending, t.position.index ≤ w.length ∧
      (TokenStream.mk w.toArray).lookahead t.position.index ≠ none ∧
      t.position.calls.getLast? = some ⟨r, none, 0⟩ ∧
      (∀ c ∈ t.position.calls.dropLast, c.follow ≠ none) ∧
      (∀ c ∈ t.position.calls.head?, g.recognizer.network.Belongs c.rule t.position.state) ∧
      t.position.calls.IsChain fun c below =>
        ∀ f ∈ c.follow, g.recognizer.network.Belongs below.rule f) ∧
    ∀ c ∈ m.found.toList, ∃ chain, c.contexts = [chain] ∧ chain.head? = some r ∧
      ((∀ x ∈ options.recovery, ∀ callee, x.target = .goToRule callee → m.stats.attempts x = 0) →
        chain.IsChain source.Calls) := by
  constructor
  · -- For the stack alone it does not matter which rules call which.
    have hs := Source.framed_of_build (R := fun _ _ => True)
      (s := .ofOptions g.recognizer.network ⟨w.toArray⟩ options limit) h hsize
      (fun _ _ _ => trivial) rfl htable
    have hframed := hm.framed hs hstart fun _ _ _ _ _ _ _ => trivial
    intro t ht
    obtain ⟨hstacked, hle⟩ := hframed.pending t ht
    exact ⟨hle, TokenStream.lookahead_ne_none hle, hstacked.getLast?_eq, hstacked.follow_ne_none,
      hstacked.belongs, hstacked.isChain_returns⟩
  · intro c hc
    -- Callers and called rules are related if recovery has entered no rule, and anyhow otherwise.
    have hs := Source.framed_of_build
      (R := fun caller callee => (∀ x ∈ options.recovery, ∀ callee, x.target = .goToRule callee →
        m.stats.attempts x = 0) → source.Calls caller callee)
      (s := .ofOptions g.recognizer.network ⟨w.toArray⟩ options limit) h hsize
      (fun _ _ hcalls _ => hcalls) rfl htable
    have hframed := hm.framed hs hstart fun x hx callee htarget hused _ _ hnone =>
      absurd (hnone x hx callee htarget) hused
    obtain ⟨x, rfl, hrooted, -⟩ := hframed.found c hc
    exact ⟨x.2, rfl, hrooted.head, fun hnone => hrooted.linked.imp fun _ _ hR => hR hnone⟩

/-- The block was entered and has read its `x`. -/
def openBlock : Machine :=
  ⟨.explore ⟨13, 1, [], [⟨1, some 9, 0⟩, ⟨0, none, 0⟩], 0⟩ :: .watch behindBlock ⟨0, 0, 0⟩ ::
    otherThanBlock, #[], false, .empty, []⟩

/-- The block was left at the caret, where `y` is missing. -/
def missingBlock : Machine :=
  ⟨.watch behindBlock ⟨0, 0, 0⟩ :: otherThanBlock, #[⟨.token 3, [[0, 1]]⟩], false, .empty, []⟩

/-- Behind `x` the block is open, and returns to a state of the start rule, which calls it. -/
theorem open_block_is_framed : ∃ g, blockGrammar.build = .ok g ∧
    Machine.Reaches (blockSetting jumpToFix [2]) (.start 0 0) openBlock ∧
    Machine.Reaches (blockSetting jumpToFix [2]) (.start 0 0) missingBlock ∧
    g.recognizer.network.Belongs 1 13 ∧ g.recognizer.network.Belongs 0 9 ∧
    blockGrammar.Calls 0 1 := by
  obtain ⟨g, hbuild, hnetwork⟩ := exists_build_blockGrammar
  have hsize : blockGrammar.numbering.size < 2 ^ 31 - 2 := by decide
  obtain ⟨hstart, hopen, hmissing⟩ : blockNetwork.start? 0 = some 0 ∧
      Machine.RunsTo (blockSetting jumpToFix [2]) 4 (.start 0 0) openBlock ∧
      Machine.RunsTo (blockSetting jumpToFix [2]) 1 openBlock missingBlock := by
    cbv
  have hopen := hopen.reaches
  have hmissing := hopen.trans hmissing.reaches
  rw [blockSetting, hnetwork] at hopen hmissing ⊢
  rw [hnetwork] at hstart
  have htable : g.recognizer.network.HasTable (Options.mk [] [jumpToFix] none).firstTokens :=
    trivial
  obtain ⟨hpositions, -⟩ := call_stack_invariant (w := [2]) hbuild hsize htable hstart hopen
  obtain ⟨-, hfound⟩ := call_stack_invariant (w := [2]) hbuild hsize htable hstart hmissing
  obtain ⟨-, -, -, -, hstate, hreturns⟩ := hpositions _ List.mem_cons_self
  obtain ⟨chain, hchain, -, hlinked⟩ := hfound _ List.mem_cons_self
  cases hchain
  have hcalls := hlinked fun x hx callee _ => rfl
  exact ⟨g, hbuild, hopen, hmissing, hstate _ rfl, hreturns.rel 9 rfl, hcalls.rel⟩

end Caret
