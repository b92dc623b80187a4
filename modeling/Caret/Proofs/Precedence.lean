import Caret.Proofs.Confinement
import Caret.Proofs.Conservation
import Caret.Proofs.Pushdown
import Caret.Proofs.Suggestions

/-!
# `Caret.Proofs.Precedence`: gates do not change the language

Precedence decides how operators are nested. `gates_keep_language` states that it decides nothing
else: without the gates of its network a grammar accepts the same tokens, and a traversal finds the
same token types. A rule with primaries `P` and operators `O` stands for `P (O P)*`.

* Every way through gates is a way without them (`Position.Reaches.ungated`), so nothing is lost.
* Without gates more ways are taken, but all that they find is found by derivations at level zero
  (`exists_traverse_outlined`), and these are what a traversal with gates finds.
-/

set_option autoImplicit false

namespace Caret

/-! ### Traversals without options -/

/-- The surroundings of a traversal without options. Nullability is never asked for, so nothing need
be known about it. -/
def Setting.plain (n : Network) (w : List TokenType) : Setting :=
  ⟨n, ⟨w.toArray⟩, .none, fun _ => .error .unfinished⟩

/-- Without options every call enters its rule. -/
theorem Setting.follows_plain (n : Network) (w : List TokenType) :
    (Setting.plain n w).Follows w noAnswers where
  stream_eq := rfl
  entered _ _ _ start r f level _ _ := call_of_options_none rfl start r f level
  answered _ _ _ _ _ _ _ _ _ h := by cases h

/-- The traversal that may ask about nullability ends as the one that may not. -/
theorem traverse_ends_of_plain {n : Network} {w : List TokenType} {r : RuleIndex} {T : Traversal}
    (h : Ends (fun limit => Traversal.run (.plain n w) limit r) T) :
    Ends (fun limit => traverse n ⟨w.toArray⟩ .none limit r) T := by
  obtain ⟨bound, hbound⟩ := h
  refine ⟨bound, fun limit hlimit => ?_⟩
  -- Only the answers about nullability differ, and without options nobody asks.
  have hs : (Setting.ofOptions n ⟨w.toArray⟩ .none limit).Unguards (.plain n w) :=
    ⟨rfl, rfl, rfl, rfl, rfl, fun _ _ hb => by cases hb⟩
  exact Traversal.run_of_le hs rfl (hbound bound (Nat.le_refl bound)) hlimit

/-- What the derivations of a rule admit as outputs in front of the tokens. -/
def Effect.Derived (d : Definitions Label RuleIndex) (r : RuleIndex) (w : List TokenType) :
    Effect → Prop
  | .finish => Yields d (.rule r 0) w
  | .report c => ∃ t chain, c.id = .token t ∧ Awaits d (.rule r 0) w chain t
  | _ => True

section

variable {rules : List (Rule Label RuleIndex)} {alphabet : Universe} {n : Network}
  {r : RuleIndex} {w : List TokenType}

/-- A network that has the pieces of the rules finds nothing but what derivations wait for. -/
theorem exists_traverse_outlined (h : WellFormed rules alphabet) (hn : n.Outlines rules alphabet)
    (hr : r < rules.length) (w : List TokenType) :
    ∃ T, Ends (fun limit => Traversal.run (.plain n w) limit r) T ∧
      (T.reachedEnd = true → Yields (.ofRules rules alphabet) (.rule r 0) w) ∧
      ∀ c ∈ T.found, ∃ t chain, c.id = .token t ∧
        Awaits (.ofRules rules alphabet) (.rule r 0) w chain t := by
  obtain ⟨start, -, stop, hstart, hstop, -⟩ :=
    hn.outlined r _ (Option.map_eq_some_iff.mpr ⟨_, List.getElem?_eq_getElem hr, rfl⟩)
  have hbody : Grounded rules (.body r 0) w := by
    cases (h.allGrounded w).rule r 0 hr with
    | rule hbody _ => exact hbody
  have hbehind : ConfinedBehind (.ofRules rules alphabet) (.plain n w) w
      (Effect.Derived (.ofRules rules alphabet) r w) (.body r 0) stop [⟨r, none, 0⟩] w := by
    refine ⟨fun c t chain hawaits => ⟨t, r :: c, rfl, .rule hawaits⟩, fun y u hyu hy => ?_⟩
    -- Behind the rule the end is reached if all tokens are read.
    refine ⟨_, .atEnd rfl hn.tidy hstop ⟨y, hyu.symm⟩, fun x hx => ?_⟩
    rw [atEnd] at hx
    split at hx
    · rename_i hnil
      rw [List.mem_singleton.mp hx]
      rw [hnil, List.append_nil] at hyu
      exact .rule (hyu ▸ hy)
    · cases hx
  obtain ⟨outs, houts, hderived⟩ := hbody.confines (Setting.follows_plain n w) hn
    (List.suffix_refl w) _ none 0 [] start stop hstart hstop hbehind
  refine ⟨_, Traversal.run_of_settles hn.tidy hstart houts, fun hend => ?_, fun c hc => ?_⟩
  · exact hderived .finish (List.contains_iff_mem.mp hend)
  · obtain ⟨x, hx, hcandidate⟩ := List.mem_filterMap.mp hc
    cases x with
    | report c' =>
        cases hcandidate
        exact hderived (.report c) hx
    | _ => cases hcandidate

end

/-! ### Ways through gates -/

/-- The setting has the same network without gates. Neither has any options. -/
structure Setting.Ungates (s' s : Setting) : Prop where
  network_eq : s'.network = s.network.ungated
  stream_eq : s'.stream = s.stream
  options_eq : s.options = .none
  options_eq' : s'.options = .none

section

variable {s s' : Setting} {p q : Position} {effects effects' : List Effect} {x : Effect}

/-- Without gates an edge has at least the effects that it had. -/
theorem follow_ungated (hs : s'.Ungates s) {leaving : Bool} {e : Edge}
    (h : s.follow p leaving e = .ok effects) (hx : x ∈ effects) :
    ∃ effects', s'.follow p leaving e.ungated = .ok effects' ∧ x ∈ effects' := by
  -- The edge has an effect, so its target exists, in both networks.
  have hlt := lt_of_mem_follow h hx
  have hnone : ¬ (s'.network.state? e.ungated.target).isNone = true := by
    refine isNone_of_lt ?_
    rw [hs.network_eq, Network.size_ungated, Edge.target_ungated]
    exact hlt
  rw [Setting.follow.eq_def, if_neg (isNone_of_lt hlt)] at h
  rw [Setting.follow.eq_def, if_neg hnone]
  cases e with
  | epsilon t => exact ⟨effects, h, hx⟩
  | command t index => exact ⟨effects, h, hx⟩
  | gate t level =>
      -- The gate was open, and did what a move does.
      refine ⟨_, rfl, ?_⟩
      rw [← Except.ok.inj h] at hx
      split at hx
      · cases hx
      · exact hx
  | call t rule f level =>
      simp only [call_of_options_none hs.options_eq] at h
      simp only [Edge.ungated, call_of_options_none hs.options_eq']
      exact ⟨effects, h, hx⟩
  | read t label =>
      refine ⟨effects, ?_, hx⟩
      rw [← h]
      show s'.read p (.read t label) = s.read p (.read t label)
      rw [Setting.read, Setting.read, hs.stream_eq, hs.network_eq]
      rfl

/-- Without gates exploring a position has at least the same effects. -/
theorem explore_ungated (hs : s'.Ungates s) (h : s.explore p = .ok effects)
    (h' : s'.explore p = .ok effects') (hx : x ∈ effects) : x ∈ effects' := by
  rcases exists_departs_of_mem h hx with
    ⟨rfl, ⟨state, hstate, hkind⟩, htop, hread⟩ | ⟨e, q, leaving, here, hdeparts, hhere, hx⟩
  · refine (finish_mem_iff h').mpr ⟨⟨state.ungated, ?_, hkind⟩, htop, ?_⟩
    · rw [hs.network_eq]
      exact Network.state?_ungated_of hstate
    · rw [hs.stream_eq]
      exact hread
  · have hdeparts' : p.Departs s'.network e.ungated q leaving := by
      rw [hs.network_eq]
      cases hdeparts with
      | inside hstate hkind he =>
          exact .inside (Network.state?_ungated_of hstate) hkind (List.mem_map_of_mem he)
      | leaving hstate hkind hcalls he htarget =>
          exact .leaving (Network.state?_ungated_of hstate) hkind hcalls (List.mem_map_of_mem he)
            ((Edge.target_ungated e).trans htarget)
    -- The same edge is followed without its test, and its effects are among all effects.
    obtain ⟨here', hhere', hsub⟩ := follow_of_departs h' hdeparts'
    obtain ⟨here'', hhere'', hx'⟩ := follow_ungated hs hhere hx
    cases hhere'.symm.trans hhere''
    exact hsub x hx'

/-- A way through gates is a way without them. -/
theorem Position.Reaches.ungated (hs : s'.Ungates s)
    (hexplored : ∀ q, p.Reaches s' q → ∃ effects, s'.explore q = .ok effects)
    (h : p.Reaches s q) : p.Reaches s' q := by
  -- Each step of the way is one of the other network, where the position is explored too.
  induction h with
  | refl => exact .refl
  | tail _ hnext ih =>
      obtain ⟨effects, heffects, hmem⟩ := hnext
      obtain ⟨effects', heffects'⟩ := hexplored _ ih
      exact ih.tail ⟨effects', heffects', explore_ungated hs heffects heffects' hmem⟩

/-- What is put out on a way through gates is put out without them. -/
theorem Position.Emits.ungated (hs : s'.Ungates s)
    (hexplored : ∀ q, p.Reaches s' q → ∃ effects, s'.explore q = .ok effects)
    (h : p.Emits s x) : p.Emits s' x := by
  obtain ⟨q, effects, hreaches, heffects, hx⟩ := h
  have hreaches' := hreaches.ungated hs hexplored
  obtain ⟨effects', heffects'⟩ := hexplored q hreaches'
  exact ⟨q, effects', hreaches', heffects', explore_ungated hs heffects heffects' hx⟩

end

section

variable {rules : List (Rule Label RuleIndex)} {alphabet : Universe} {n : Network} {r : RuleIndex}

/-- With gates and without them, a traversal finds the same and comes to the same end. -/
theorem exists_traverse_ungated (h : WellFormed rules alphabet) (hn : n.Realizes rules alphabet)
    (hr : r < rules.length) (w : List TokenType) :
    ∃ T T', Ends (fun limit => traverse n ⟨w.toArray⟩ .none limit r) T ∧
      Ends (fun limit => traverse n.ungated ⟨w.toArray⟩ .none limit r) T' ∧
      T'.reachedEnd = T.reachedEnd ∧
      ∀ id, id ∈ T'.found.map Candidate.id ↔ id ∈ T.found.map Candidate.id := by
  obtain ⟨os, hos⟩ := h.exists_enumerates_body (fair_noAnswers _) hr w
  have hT := Traversal.run_of_enumerates (Setting.follows_plain n w) hn hr hos
  have hrule : Enumerates (.ofRules rules alphabet) noAnswers (.rule r 0) w _ := .entered rfl hos
  obtain ⟨T', hT', hend', hfound'⟩ := exists_traverse_outlined h hn.outlines_ungated hr w
  refine ⟨_, T', traverse_ends_of_plain hT, traverse_ends_of_plain hT', ?_⟩
  -- Both traversals have found what the positions put out that they come to.
  obtain ⟨start, -, -, hstart, -⟩ := hn.wired r _ (List.getElem?_eq_getElem hr)
  obtain ⟨bound, hbound⟩ := hT
  obtain ⟨bound', hbound'⟩ := hT'
  obtain ⟨-, hfound, hend⟩ := Traversal.run_spec (s := .plain n w) rfl hstart
    (hbound bound (Nat.le_refl bound))
  obtain ⟨hexplored, hemits', hends'⟩ := Traversal.run_spec (s := .plain n.ungated w) rfl hstart
    (hbound' bound' (Nat.le_refl bound'))
  have hs : (Setting.plain n.ungated w).Ungates (.plain n w) := ⟨rfl, rfl, rfl, rfl⟩
  -- Without gates nothing is found but what derivations at level zero wait for, and with gates
  -- these are found.
  refine ⟨Bool.eq_iff_iff.mpr ⟨fun h => ?_, fun h => ?_⟩, fun id => ⟨fun h => ?_, fun h => ?_⟩⟩
  · exact hrule.reachesEnd_iff.mpr (hend' h)
  · exact hends'.mpr ((hend.mp h).ungated hs hexplored)
  · obtain ⟨c, hc, rfl⟩ := List.mem_map.mp h
    obtain ⟨t, chain, hid, hawaits⟩ := hfound' c hc
    exact List.mem_map.mpr
      ⟨⟨.token t, [chain]⟩, (hrule.mem_candidates_iff _).mpr ⟨t, chain, rfl, hawaits⟩, hid.symm⟩
  · obtain ⟨c, hc, rfl⟩ := List.mem_map.mp h
    exact List.mem_map.mpr ⟨c, (hemits' c).mpr (((hfound c).mp hc).ungated hs hexplored), rfl⟩

end

/-- Gates do not change the language. With any start rule and any tokens, the traversal of the
network of an accepted grammar and the traversal of the network without gates come to the same end,
and find the same token types. A rule with primaries `P` and operators `O` accepts `P (O P)*`, where
references to rules enter them at level zero, and the token types that are found are those that this
expression waits for. -/
theorem gates_keep_language {s : Source} {g : Grammar} (h : s.build = .ok g)
    (hsize : s.numbering.size < 2 ^ 31 - 2) (r : RuleIndex) (w : List TokenType) :
    ∃ T T', Ends (fun limit => traverse g.recognizer.network ⟨w.toArray⟩ .none limit r) T ∧
      Ends (fun limit => traverse g.recognizer.network.ungated ⟨w.toArray⟩ .none limit r) T' ∧
      T'.reachedEnd = T.reachedEnd ∧
      (∀ id, id ∈ T'.found.map Candidate.id ↔ id ∈ T.found.map Candidate.id) ∧
      ∀ name primaries operators, s.rules[r]? = some ⟨name, .precedence primaries operators⟩ →
        (T.reachedEnd = true ↔
          Yields s.definitions (.expr (.seq [.alt primaries,
            .star (.seq [.alt operators, .alt primaries]) true])) w) ∧
        ∀ t, .token t ∈ T.found.map Candidate.id ↔ ∃ c,
          Awaits s.definitions (.expr (.seq [.alt primaries,
            .star (.seq [.alt operators, .alt primaries]) true])) w c t := by
  rcases Nat.lt_or_ge r s.rules.length with hr | hr
  · obtain ⟨T, T', hT, hT', hend, hfound⟩ := exists_traverse_ungated
      (Source.wellFormed_of_build h hsize) (Source.realizes_of_build h hsize)
      ((Source.length_rules h).symm ▸ hr) w
    refine ⟨T, T', hT, hT', hend, hfound, ?_⟩
    intro name primaries operators hrule
    have hbody : s.definitions.body r = some (.precedence primaries operators) :=
      Option.map_eq_some_iff.mpr ⟨_, hrule, rfl⟩
    obtain ⟨os, hos, hends⟩ := Source.traverse_ends h hsize hr w
    obtain rfl := hT.unique hends
    refine ⟨hos.reachesEnd_iff.trans (Yields.rule_zero_iff hbody), fun t => ?_⟩
    refine Iff.trans ?_ (Awaits.rule_zero_iff hbody)
    constructor
    · intro hmem
      obtain ⟨c, hc, hid⟩ := List.mem_map.mp hmem
      obtain ⟨t', chain, rfl, hawaits⟩ := (hos.mem_candidates_iff c).mp hc
      cases hid
      exact ⟨chain, hawaits⟩
    · rintro ⟨chain, hawaits⟩
      exact List.mem_map.mpr
        ⟨_, (hos.mem_candidates_iff _).mpr ⟨t, chain, rfl, hawaits⟩, rfl⟩
  · -- A rule that does not exist leads to nothing in either network.
    have hT := Source.traverse_ends_of_length_le h hsize hr ⟨w.toArray⟩ .none
    refine ⟨.empty, .empty, hT, ⟨0, fun limit _ => ?_⟩, rfl, fun _ => Iff.rfl, ?_⟩
    · have hnone : g.recognizer.network.ungated.start? r = none := Source.start?_eq_none h hsize hr
      simp only [traverse, Traversal.run, Setting.ofOptions, hnone]
    · intro name primaries operators hrule
      rw [List.getElem?_eq_none hr] at hrule
      cases hrule

/-- The text `x + x * x` is a sum, with gates and without them. With gates the product is the right
operand of the sum. -/
theorem sum_of_product_is_accepted : ∃ g, productGrammar.build = .ok g ∧
    productGrammar.numbering.size < 2 ^ 31 - 2 ∧
    ∃ T T', Ends (fun limit => traverse g.recognizer.network ⟨#[2, 6, 2, 5, 2]⟩ .none limit 1) T ∧
      Ends (fun limit =>
        traverse g.recognizer.network.ungated ⟨#[2, 6, 2, 5, 2]⟩ .none limit 1) T' ∧
      T.reachedEnd = true ∧ T'.reachedEnd = true ∧
      ∀ id, id ∈ T'.found.map Candidate.id ↔ id ∈ T.found.map Candidate.id := by
  obtain ⟨g, hg⟩ := exists_build_productGrammar
  obtain ⟨T, T', hT, hT', hend, hfound, hflat⟩ :=
    gates_keep_language hg size_numbering_productGrammar 1 [2, 6, 2, 5, 2]
  have hx : Yields productGrammar.definitions (.expr (.terminal (.one (.literal "x")))) [2] :=
    .terminal (by decide)
  have htimes : Yields productGrammar.definitions (.expr (.terminal (.one (.literal "*")))) [5] :=
    .terminal (by decide)
  have hplus : Yields productGrammar.definitions (.expr (.terminal (.one (.literal "+")))) [6] :=
    .terminal (by decide)
  have haccepted : T.reachedEnd = true := by
    rw [(hflat "sum" _ _ rfl).1]
    refine Yields.seqPair_iff.mpr ⟨[2], [6, 2, 5, 2], rfl, .alt List.mem_cons_self hx, ?_⟩
    refine Yields.star_iff.mpr (Or.inr ⟨[6, 2], [5, 2], rfl, ?_,
      Yields.star_iff.mpr (Or.inr ⟨[5, 2], [], rfl, ?_, .starNil⟩)⟩)
    · exact Yields.seqPair_iff.mpr ⟨[6], [2], rfl,
        .alt (List.mem_cons_of_mem _ List.mem_cons_self) hplus, .alt List.mem_cons_self hx⟩
    · exact Yields.seqPair_iff.mpr
        ⟨[5], [2], rfl, .alt List.mem_cons_self htimes, .alt List.mem_cons_self hx⟩
  exact ⟨g, hg, size_numbering_productGrammar, T, T', hT, hT', haccepted, hend.trans haccepted,
    hfound⟩

end Caret
