import Caret.Proofs.Construction
import Caret.Proofs.Ownership
import Caret.Proofs.TokenNumbers
import Caret.Proofs.Validity

/-!
# `Caret.Proofs.NetworkShape`: what the network of a grammar looks like

`Network.WellShaped` states what can be relied on in a network that was compiled from a grammar.
Calls and returns match: a call leads to the start of a rule, the stop state of the rule has one
edge for each call of it, and nothing but this edge leads to the state where the caller goes on. All
other edges stay in their rule and do not lead to its start, only decisions and stop states have
several edges, and the labels are made of token types of the grammar.

`valid_grammars_build_well_shaped` says that a grammar that meets the checks, and only such a
grammar, gets a network, and that the network has this shape. The facts come from the steps in which
a network is built (`Network.ofRules_sound`), from what growing keeps (`Network.Tidy`) and from the
rules that states belong to (`Network.Owned`).
-/

set_option autoImplicit false

namespace Caret

/-- The number is that of a token type or of the end of the input. -/
def IsTokenType (max : TokenType) (t : TokenType) : Prop :=
  t = endOfInput ∨ firstTokenType ≤ t ∧ t ≤ max

/-- All symbols that the label mentions are token types or the end of the input. -/
def Label.Within (max : TokenType) : Label → Prop
  | .symbol t => IsTokenType max t
  | .oneOf set => ∀ t ∈ set, IsTokenType max t
  | .noneOf set => ∀ t ∈ set, IsTokenType max t
  | .any => True

/-- An edge that is no call moves on or reads. -/
theorem Edge.passes_or_read {e : Edge} (h : e.isCall = false) :
    e.passes = true ∨ ∃ t l, e = .read t l := by
  cases e with
  | call _ _ _ _ => cases h
  | read t l => exact .inr ⟨t, l, rfl⟩
  | _ => exact .inl rfl

/-- If the function gives nothing but at one position of a list, only this position counts. -/
theorem flatMap_eq_of_getElem? {α β : Type} {l : List α} {g : α → List β} {i : Nat} {x : α}
    (hi : l[i]? = some x) (hother : ∀ j y, l[j]? = some y → j ≠ i → g y = []) :
    l.flatMap g = g x := by
  induction l generalizing i with
  | nil => cases hi
  | cons first rest ih =>
      rw [List.flatMap_cons]
      cases i with
      | zero =>
          cases hi
          have hnil : rest.flatMap g = [] := by
            rw [List.flatMap_eq_nil_iff]
            intro y hy
            obtain ⟨j, hj⟩ := List.mem_iff_getElem?.mp hy
            exact hother (j + 1) y hj (Nat.succ_ne_zero j)
          rw [hnil, List.append_nil]
      | succ i =>
          rw [hother 0 first rfl (Nat.succ_ne_zero i).symm, List.nil_append]
          exact ih hi fun j y hy hne => hother (j + 1) y hy fun h => hne (Nat.succ.inj h)

namespace Network

/-- The edges that lead to a state, with the states that they leave. -/
def entering (n : Network) (b : StateId) : List (StateId × Edge) :=
  n.states.toList.flatMap fun s => (s.edges.filter fun e => e.target = b).map (s.id, ·)

/-- The shape of a network in which calls and returns match and everything else stays in its
rule. -/
structure WellShaped (n : Network) : Prop where
  id_eq : ∀ a s, n.state? a = some s → s.id = a
  start_iff : ∀ a, n.HasKind .ruleStart a ↔ ∃ r, n.start? r = some a
  stop_iff : ∀ a, n.HasKind .ruleStop a ↔ ∃ r, n.stop? r = some a
  target_lt : ∀ a s, n.state? a = some s → ∀ e ∈ s.edges, e.target < n.states.size
  /-- A call leads to the start of its rule. The caller goes on in its own rule, at a state that is
  entered from the stop state of the called rule only. -/
  call : ∀ a s, n.state? a = some s → ∀ target rule follow level,
    Edge.call target rule follow level ∈ s.edges →
      n.start? rule = some target ∧ n.Belongs s.rule follow ∧
        ∃ stop, n.stop? rule = some stop ∧ n.entering follow = [(stop, .epsilon follow)]
  /-- A stop state has one edge for each call of its rule, and no others. -/
  stop_edges : ∀ rule stop, n.stop? rule = some stop → ∃ s, n.state? stop = some s ∧
    s.rule = rule ∧ s.edges.Perm ((n.follows rule).map Edge.epsilon)
  start_entered : ∀ a s, n.state? a = some s → ∀ e ∈ s.edges, e.isCall = false →
    ¬ n.HasKind .ruleStart e.target
  within : ∀ a s, n.state? a = some s → s.kind ≠ .ruleStop → ∀ e ∈ s.edges, e.isCall = false →
    n.Belongs s.rule e.target
  fork : ∀ a s, n.state? a = some s → 2 ≤ s.edges.length → s.kind = .ruleStop ∨ s.kind = .decision
  decision : ∀ a s, n.state? a = some s → s.kind = .decision → ∀ e ∈ s.edges, e.isMove = true
  label : ∀ a s, n.state? a = some s → ∀ t l, Edge.read t l ∈ s.edges → l.Within n.maxTokenType

/-! ### Edges that enter a state -/

section Entering

variable {n : Network} {a b : Nat} {s : State} {e : Edge}

/-- Where the calls of a rule return to, a caller goes on. -/
theorem isFollow_of_mem_follows {r : RuleIndex} {f : Nat} (h : f ∈ n.follows r) :
    n.IsFollow f := by
  obtain ⟨e, he, hreturn⟩ := List.mem_filterMap.mp h
  obtain ⟨s, hs, hmem⟩ := List.mem_flatMap.mp he
  obtain ⟨a, ha⟩ := List.mem_iff_getElem?.mp hs
  have hstate : n.state? a = some s := by
    rw [state?, ← Array.getElem?_toList, ha]
  cases e with
  | call target rule follow level =>
      simp only [Edge.returnTo?, Option.ite_none_right_eq_some, Option.some.injEq] at hreturn
      obtain ⟨-, rfl⟩ := hreturn
      exact ⟨a, s, hstate, target, rule, level, hmem⟩
  | _ => cases hreturn

/-- A state has one kind. -/
theorem HasKind.unique {k k' : StateKind} (h : n.HasKind k a) (h' : n.HasKind k' a) : k = k' := by
  obtain ⟨s, hs, rfl⟩ := h
  obtain ⟨s', hs', rfl⟩ := h'
  cases hs.symm.trans hs'
  rfl

/-- Where an edge within a rule leads to is no start of a rule, and no caller goes on there. -/
theorem Sound.inner_target (hn : n.Sound) (ht : n.Tidy) (hs : n.state? a = some s)
    (hkind : s.kind ≠ .ruleStop) (he : e ∈ s.edges) (hcall : e.isCall = false) :
    n.Inner e.target := by
  rcases Edge.passes_or_read hcall with hpasses | ⟨t, l, rfl⟩
  · have hpassed : n.IsPassed e.target := ⟨a, s, hs, hkind, e, he, hpasses, rfl⟩
    exact ⟨ht.passed_lt _ hpassed, fun hf => ht.follow_unpassed _ hf hpassed,
      fun rule hstart => ht.start_unpassed rule _ hstart hpassed⟩
  · exact hn.read_inner a s hs t l he

/-- The edges of a stop state lead to where callers go on. -/
theorem Sound.isFollow_target (hn : n.Sound) (hs : n.state? a = some s)
    (hkind : s.kind = .ruleStop) (he : e ∈ s.edges) : n.IsFollow e.target := by
  obtain ⟨r, hstop⟩ := (hn.stop_iff a).mp ⟨s, hs, hkind⟩
  obtain ⟨f, hf, rfl⟩ := List.mem_map.mp ((hn.balanced r a s hstop hs).mem_iff.mp he)
  exact isFollow_of_mem_follows hf

/-- Every edge leads to a state that is there. -/
theorem Sound.target_lt (hn : n.Sound) (ht : n.Tidy) (hs : n.state? a = some s)
    (he : e ∈ s.edges) : e.target < n.states.size := by
  by_cases hkind : s.kind = .ruleStop
  · exact ht.follow_lt _ (hn.isFollow_target hs hkind he)
  · cases e with
    | call target rule follow level =>
        exact ht.start_lt rule target (ht.call_start a s hs target rule follow level he)
    | _ => exact (hn.inner_target ht hs hkind he rfl).lt

/-- No edge but a call leads to the start of a rule. -/
theorem Sound.not_start_target (hn : n.Sound) (ht : n.Tidy) (hs : n.state? a = some s)
    (he : e ∈ s.edges) (hcall : e.isCall = false) : ¬ n.HasKind .ruleStart e.target := by
  intro hstart
  by_cases hkind : s.kind = .ruleStop
  · have hbasic := hn.follow_kind _ (hn.isFollow_target hs hkind he)
    cases hstart.unique hbasic
  · obtain ⟨r, hr⟩ := (hn.start_iff _).mp hstart
    exact (hn.inner_target ht hs hkind he hcall).not_start r hr

/-- Of all states only the stop state of the called rule leads to the state where the caller goes
on. -/
theorem Sound.filter_entering (hn : n.Sound) (ht : n.Tidy) {rule : RuleIndex} {f stop : Nat}
    (hf : n.IsFollow f) (hreturns : n.ReturnsOnly rule f) (hstop : n.stop? rule = some stop)
    (hs : n.state? a = some s) :
    s.edges.filter (fun e => e.target = f) = if a = stop then [.epsilon f] else [] := by
  by_cases hkind : s.kind = .ruleStop
  · obtain ⟨r, hr⟩ := (hn.stop_iff a).mp ⟨s, hs, hkind⟩
    rw [hreturns r a s hr hs]
    -- Different rules have different stop states.
    by_cases hsame : r = rule
    · subst hsame
      cases hr.symm.trans hstop
      simp
    · have hne : a ≠ stop := fun heq => hsame (ht.stop_injective r rule stop (heq ▸ hr) hstop)
      simp [hsame, hne]
  · have hne : a ≠ stop := by
      rintro rfl
      obtain ⟨s', hs', hkind'⟩ := ht.stop_kind rule a hstop
      cases hs.symm.trans hs'
      exact hkind hkind'
    rw [if_neg hne, List.filter_eq_nil_iff]
    intro e he htarget
    have htarget' : e.target = f := of_decide_eq_true htarget
    cases hcall : e.isCall with
    | false => exact (hn.inner_target ht hs hkind he hcall).not_follow (htarget' ▸ hf)
    | true =>
        -- A call leads to the start of a rule, which is of another kind.
        cases e with
        | call target callee follow level =>
            have hstart := (hn.start_iff _).mpr ⟨_, ht.call_start a s hs _ _ _ _ he⟩
            have hbasic := hn.follow_kind f hf
            rw [← htarget'] at hbasic
            cases hstart.unique hbasic
        | _ => cases hcall

/-- To where a caller goes on, only the return from the call leads. -/
theorem Sound.entering_follow (hn : n.Sound) (ht : n.Tidy) {target rule follow : Nat} {level : Int}
    (hs : n.state? a = some s) (he : Edge.call target rule follow level ∈ s.edges) :
    ∃ stop, n.stop? rule = some stop ∧ n.entering follow = [(stop, .epsilon follow)] := by
  have hstart := ht.call_start a s hs target rule follow level he
  have hlt : rule < n.stops.size := ht.stops_size ▸ (Array.getElem?_eq_some_iff.mp hstart).1
  have hstop : n.stop? rule = some n.stops[rule] := Array.getElem?_eq_getElem hlt
  have hreturns := ht.call_returns a s hs target rule follow level he
  have hf : n.IsFollow follow := ⟨a, s, hs, target, rule, level, he⟩
  obtain ⟨last, hlast, -⟩ := ht.stop_kind rule _ hstop
  have hlist : n.states.toList[n.stops[rule]]? = some last := by
    rw [Array.getElem?_toList]
    exact hlast
  refine ⟨_, hstop, ?_⟩
  unfold entering
  -- Of all states only the stop state of the rule contributes an edge.
  rw [flatMap_eq_of_getElem? hlist ?_]
  · rw [hn.filter_entering ht hf hreturns hstop hlast, if_pos rfl, hn.id_eq _ _ hlast]
    rfl
  · intro b s' hs' hne
    rw [Array.getElem?_toList] at hs'
    rw [hn.filter_entering ht hf hreturns hstop hs', if_neg hne]
    rfl

end Entering

/-- A sound and tidy network whose edges are owned by their rules is well shaped, if the labels of
the rules are. -/
theorem Sound.wellShaped {n : Network} {P : RuleIndex → Edge → Prop} (hn : n.Sound) (ht : n.Tidy)
    (howned : n.Owned P) (hP : ∀ r t l, P r (.read t l) → l.Within n.maxTokenType) :
    n.WellShaped where
  id_eq := hn.id_eq
  start_iff := hn.start_iff
  stop_iff := hn.stop_iff
  target_lt _ _ hs _ he := hn.target_lt ht hs he
  call a s hs target rule follow level he := by
    -- A stop state has only edges that return, so it makes no call.
    have hkind : s.kind ≠ .ruleStop := by
      intro hkind
      obtain ⟨t, heq, -⟩ := ht.stop_edges a s hs hkind _ he
      cases heq
    exact ⟨ht.call_start a s hs target rule follow level he, (howned.edges a s hs hkind _ he).1,
      hn.entering_follow ht hs he⟩
  stop_edges rule stop hstop := by
    obtain ⟨s, hs, hrule, -⟩ := howned.stop rule stop hstop
    exact ⟨s, hs, hrule, hn.balanced rule stop s hstop hs⟩
  start_entered _ _ hs _ he hcall := hn.not_start_target ht hs he hcall
  within a s hs hkind e he hcall := by
    have hkeeps := (howned.edges a s hs hkind e he).1
    cases e with
    | call _ _ _ _ => cases hcall
    | _ => exact hkeeps
  fork a s hs hlength := by
    by_contra hkind
    rw [not_or] at hkind
    have hle := hn.fork a s hs hkind.1 hkind.2
    omega
  decision := hn.decision
  label a s hs t l he := by
    have hkind : s.kind ≠ .ruleStop := by
      intro hkind
      obtain ⟨t, heq, -⟩ := ht.stop_edges a s hs hkind _ he
      cases heq
    exact hP s.rule t l (howned.edges a s hs hkind _ he).2

end Network

/-! ### Labels of a grammar -/

namespace Source

variable {s : Source} {g : Grammar}

/-- A symbol that is resolved has the number of a token type or of the end. -/
theorem isTokenType_of_tokenTypeOf {n : Numbering} {rule : String} {a : Symbol} {t : TokenType}
    (h : tokenTypeOf n rule a = .ok t) : IsTokenType n.size t := by
  have hmem := Numbering.mem_of_typeOf? (typeOf?_of_tokenTypeOf h)
  rw [List.mem_cons, Numbering.mem_tokenTypes] at hmem
  exact hmem

/-- So have all symbols of a label. -/
theorem within_of_labelOf {n : Numbering} {rule : String} {t : Terminal} {l : Label}
    (h : labelOf n rule t = .ok l) : l.Within n.size := by
  obtain ⟨hlabelled, hsymbols⟩ := labelled_of_labelOf h
  have htype : ∀ a ∈ t.symbols, IsTokenType n.size (n.typeOf a) := fun a ha =>
    isTokenType_of_tokenTypeOf (hsymbols a ha)
  -- A set has the types of the symbols that are listed.
  have hset : ∀ {symbols : List Symbol} {set : IntervalSet},
      (∀ a ∈ symbols, IsTokenType n.size (n.typeOf a)) →
        set.Represents {t | ∃ a ∈ symbols, n.typeOf a = t} → ∀ t ∈ set, IsTokenType n.size t := by
    intro symbols set htypes hrepresents t ht
    obtain ⟨a, ha, rfl⟩ := (hrepresents.mem_iff t).mp ht
    exact htypes a ha
  cases t with
  | any =>
      cases hlabelled
      trivial
  | one a =>
      cases hlabelled
      exact htype a List.mem_cons_self
  | oneOf symbols =>
      obtain ⟨set, rfl, hrepresents⟩ := hlabelled
      exact hset htype hrepresents
  | noneOf symbols =>
      obtain ⟨set, rfl, hrepresents⟩ := hlabelled
      exact hset htype hrepresents

/-- In the network of a grammar that is accepted the labels are made of token types. -/
theorem owned_within_of_build (h : s.build = .ok g) :
    g.recognizer.network.Owned fun _ => Edge.Labelled (Label.Within s.numbering.size) := by
  obtain ⟨hresolve, -, hnetwork⟩ := build_spec h
  rw [hnetwork]
  refine Network.ofRules_labelled (Q := fun _ => True) fun rule hrule => ?_
  obtain ⟨r, hr⟩ := List.mem_iff_getElem?.mp hrule
  obtain ⟨rule', -, hresolves⟩ := body_resolves hresolve hr
  refine hresolves.fits ?_ fun _ _ _ => trivial
  rintro t l ⟨name, hl⟩
  exact within_of_labelOf hl

/-- The greatest token type is the number of token types. -/
theorem maxTokenType_of_build (h : s.build = .ok g) (hsize : s.numbering.size < 2 ^ 31 - 2) :
    g.recognizer.network.maxTokenType = s.numbering.size := by
  have halphabet := (realizes_of_build h hsize).alphabet_eq
  exact congrArg Universe.high halphabet

/-- The network of a grammar that is accepted is well shaped. -/
theorem wellShaped_of_build (h : s.build = .ok g) (hsize : s.numbering.size < 2 ^ 31 - 2) :
    g.recognizer.network.WellShaped := by
  have hsound : g.recognizer.network.Sound := by
    rw [(build_spec h).2.2]
    exact Network.ofRules_sound (wellFormed_of_build h hsize).fits
  refine hsound.wellShaped (realizes_of_build h hsize).tidy (owned_within_of_build h) ?_
  intro r t l hl
  rw [maxTokenType_of_build h hsize]
  exact hl

end Source

/-- A grammar is accepted exactly if it meets the checks, and the network of a grammar that is
accepted is well shaped. -/
theorem valid_grammars_build_well_shaped (s : Source) :
    (s.Valid ↔ ∃ g, s.build = .ok g) ∧
      (s.numbering.size < 2 ^ 31 - 2 → ∀ g, s.build = .ok g →
        g.recognizer.network.WellShaped) :=
  ⟨s.valid_iff_exists_build, fun hsize _ hg => Source.wellShaped_of_build hg hsize⟩

/-- A sum is called from a line and as the operand of a sign, so its stop state returns to two
states. -/
theorem let_network_is_well_shaped : letGrammar.Valid ∧ letGrammar.numbering.size < 2 ^ 31 - 2 ∧
    ∃ g, letGrammar.build = .ok g ∧ g.recognizer.network.WellShaped ∧
      g.recognizer.network.follows 1 = [7, 17] := by
  obtain ⟨hvalid, hshape⟩ := valid_grammars_build_well_shaped letGrammar
  obtain ⟨g, hg⟩ := exists_build_letGrammar
  have hsize := size_numbering_letGrammar
  have hfollows : (letGrammar.build.toOption.map fun g => g.recognizer.network.follows 1) =
      some [7, 17] := by cbv
  rw [hg] at hfollows
  exact ⟨hvalid.mpr ⟨g, hg⟩, hsize, g, hg, hshape hsize g hg, Option.some.inj hfollows⟩

end Caret
