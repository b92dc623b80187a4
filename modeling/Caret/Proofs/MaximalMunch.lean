import Caret.Proofs.PatternNetwork
import Caret.Proofs.Reach

/-!
# `Caret.Proofs.MaximalMunch`: a lexer finds the longest match

A lexer follows all ways through its network at once. After the characters `w` its states are those
that a way from the start of a rule reaches by reading `w` (`Lexer.Tracks`), so a rule is complete
just when its pattern describes `w` (`Lexer.Tracks.mem_rules_iff`). When there are no states left,
no way reads the next character, and longer texts need not be looked at.

`Longest rules cs m best` says what the best match is among the prefixes of at most `m` characters.
Reading one more character keeps this true, and `longestMatch_is_maximal` follows for the whole
text.
-/

set_option autoImplicit false

namespace Caret

/-! ### Ways and states -/

namespace Network

variable {n : Network} {a b : StateId} {k : Nat}

/-- A way that reads nothing is a sequence of moves. -/
theorem exists_path_nil_iff :
    (∃ k, n.Path k a [] b) ↔ Relation.ReflTransGen n.Moves a b := by
  constructor
  · rintro ⟨k, h⟩
    induction k generalizing a with
    | zero =>
        cases h
        exact .refl
    | succ k ih =>
        cases h with
        | move hmove hrest => exact .head hmove (ih hrest)
  · intro h
    induction h using Relation.ReflTransGen.head_induction_on with
    | refl => exact ⟨0, .refl b⟩
    | head hmove _ ih =>
        obtain ⟨k, hpath⟩ := ih
        exact ⟨k + 1, .move hmove hpath⟩

/-- A way can be cut where a part of its text is read. -/
theorem Path.split {u v : List Char} (h : n.Path k a (u ++ v) b) :
    ∃ c i j, n.Path i a u c ∧ n.Path j c v b := by
  obtain ⟨w, hw⟩ : ∃ w, w = u ++ v := ⟨_, rfl⟩
  rw [← hw] at h
  induction h generalizing u with
  | refl a =>
      obtain ⟨rfl, rfl⟩ := List.append_eq_nil_iff.mp hw.symm
      exact ⟨a, 0, 0, .refl a, .refl a⟩
  | move hmove _ ih =>
      obtain ⟨c, i, j, hfirst, hrest⟩ := ih hw
      exact ⟨c, i + 1, j, .move hmove hfirst, hrest⟩
  | @take l a b z c w htake hrest ih =>
      cases u with
      | nil =>
          have hv : v = c :: w := hw.symm
          exact ⟨a, 0, l + 1, .refl a, hv ▸ .take htake hrest⟩
      | cons c' u =>
          obtain ⟨rfl, hw'⟩ := List.cons.inj hw
          obtain ⟨d, i, j, hfirst, hrest'⟩ := ih hw'
          exact ⟨d, i + 1, j, .take htake hfirst, hrest'⟩

/-- A way that reads one character moves, takes the character, and moves again. -/
theorem Path.exists_take {c : Char} (h : n.Path k a [c] b) :
    ∃ x y, Relation.ReflTransGen n.Moves a x ∧ n.Takes x c y ∧
      Relation.ReflTransGen n.Moves y b := by
  induction k generalizing a with
  | zero => cases h
  | succ k ih =>
      cases h with
      | move hmove hrest =>
          obtain ⟨x, y, hx, htake, hy⟩ := ih hrest
          exact ⟨x, y, .head hmove hx, htake, hy⟩
      | take htake hrest => exact ⟨_, _, .refl, htake, exists_path_nil_iff.mp ⟨k, hrest⟩⟩

/-- A way that reads one more character. -/
theorem exists_path_snoc_iff {w : List Char} {c : Char} :
    (∃ k, n.Path k a (w ++ [c]) b) ↔ ∃ x y, (∃ k, n.Path k a w x) ∧ n.Takes x c y ∧
      Relation.ReflTransGen n.Moves y b := by
  constructor
  · rintro ⟨k, h⟩
    obtain ⟨d, i, j, hfirst, hlast⟩ := h.split
    obtain ⟨x, y, hx, htake, hy⟩ := hlast.exists_take
    obtain ⟨l, hx⟩ := exists_path_nil_iff.mpr hx
    have hjoined := hfirst.append hx
    rw [List.append_nil] at hjoined
    exact ⟨x, y, ⟨_, hjoined⟩, htake, hy⟩
  · rintro ⟨x, y, ⟨k, hfirst⟩, htake, hy⟩
    obtain ⟨l, hlast⟩ := exists_path_nil_iff.mpr hy
    exact ⟨k + (l + 1), hfirst.append (.take htake hlast)⟩

end Network

namespace Lexer

variable {l : Lexer}

/-- The closure is what can be reached without reading. -/
theorem mem_closure_iff (roots : List StateId) (x : StateId) :
    x ∈ l.closure roots ↔ x < l.network.network.states.size ∧
      ∃ r ∈ roots, Relation.ReflTransGen l.network.network.Moves r x := by
  have hleads : l.network.network.LeadsAlong
      (fun s => (s.edges.filter Edge.isEpsilon).map Edge.target) = l.network.network.Moves := by
    funext a b
    simp only [Network.LeadsAlong, Network.Moves, List.mem_map, List.mem_filter, and_assoc]
  rw [closure, Network.mem_reach_iff, hleads]

/-- Reading a character leads along the edges that admit it. -/
theorem mem_move_iff (current : List StateId) (c : Char) (y : StateId) :
    y ∈ l.move current c ↔ ∃ x ∈ current, l.network.network.Takes x c y := by
  simp only [move, Network.Takes, List.mem_flatMap, List.mem_filterMap, List.mem_map,
    List.mem_filter, and_assoc]
  constructor
  · rintro ⟨s, ⟨x, hx, hs⟩, hedge⟩
    exact ⟨x, hx, s, hs, hedge⟩
  · rintro ⟨x, hx, s, hs, hedge⟩
    exact ⟨s, ⟨x, hx, hs⟩, hedge⟩

/-- The states are those that a way from the start of a rule reaches by reading the text. -/
def Tracks (l : Lexer) (w : List Char) (current : List StateId) : Prop :=
  ∀ x, x ∈ current ↔ x < l.network.network.states.size ∧
    ∃ a ∈ l.network.network.starts.toList, ∃ k, l.network.network.Path k a w x

/-- Before anything is read the states are those reached from the starts of rules without
reading. -/
theorem tracks_initial (l : Lexer) : l.Tracks [] l.initial := by
  intro x
  simp only [initial, mem_closure_iff, Network.exists_path_nil_iff]

namespace Tracks

variable {w : List Char} {current : List StateId} (h : l.Tracks w current)
include h

/-- Reading a character and following the edges that read nothing. -/
theorem step (c : Char) : l.Tracks (w ++ [c]) (l.closure (l.move current c)) := by
  intro x
  rw [mem_closure_iff]
  refine and_congr Iff.rfl ?_
  simp only [mem_move_iff, h _, Network.exists_path_snoc_iff]
  constructor
  · rintro ⟨y, ⟨z, ⟨-, a, ha, hpath⟩, htake⟩, hmoves⟩
    exact ⟨a, ha, z, y, hpath, htake, hmoves⟩
  · rintro ⟨a, ha, z, y, hpath, htake, hmoves⟩
    have ⟨s, hs, _⟩ := htake
    exact ⟨y, ⟨z, ⟨Network.state?_lt hs, a, ha, hpath⟩, htake⟩, hmoves⟩

/-- If no state is left, no way goes on with the character. -/
theorem no_path_of_move_eq_nil {c : Char} (hmove : l.move current c = []) (v : List Char)
    {a : StateId} (ha : a ∈ l.network.network.starts.toList) (k : Nat) (x : StateId) :
    ¬ l.network.network.Path k a (w ++ c :: v) x := by
  intro hpath
  rw [List.append_cons] at hpath
  obtain ⟨b, i, j, hfirst, -⟩ := hpath.split
  obtain ⟨z, y, hpath', htake, -⟩ := Network.exists_path_snoc_iff.mp ⟨i, hfirst⟩
  have ⟨s, hs, _⟩ := htake
  have hz : z ∈ current := (h z).mpr ⟨Network.state?_lt hs, a, ha, hpath'⟩
  have hy : y ∈ l.move current c := (mem_move_iff current c y).mpr ⟨z, hz, htake⟩
  rw [hmove] at hy
  cases hy

end Tracks

end Lexer

/-! ### Rules that match -/

/-- The pattern of the rule describes the text. -/
def RuleMatches (rules : List LexerRule) (i : RuleIndex) (w : List Char) : Prop :=
  ∃ r, rules[i]? = some r ∧ w ∈ r.pattern.language

/-- The rule is the first one whose pattern describes the text. -/
def FirstMatch (rules : List LexerRule) (i : RuleIndex) (w : List Char) : Prop :=
  RuleMatches rules i w ∧ ∀ j < i, ¬ RuleMatches rules j w

/-- There is at most one first rule that matches. -/
theorem FirstMatch.unique {rules : List LexerRule} {i j : RuleIndex} {w : List Char}
    (hi : FirstMatch rules i w) (hj : FirstMatch rules j w) : i = j := by
  rcases Nat.lt_trichotomy i j with hlt | heq | hlt
  · exact absurd hi.1 (hj.2 i hlt)
  · exact heq
  · exact absurd hj.1 (hi.2 j hlt)

namespace Lexer

section

variable {rules : List LexerRule} {w : List Char} {current : List StateId}

/-- A rule matches a text if and only if a way from the start of a rule to the stop state of this
rule reads the text. -/
theorem ruleMatches_iff {i : RuleIndex} : RuleMatches rules i w ↔
    ∃ a ∈ (ofRules rules).network.network.starts.toList, ∃ k x s,
      (ofRules rules).network.network.Path k a w x ∧
      (ofRules rules).network.network.state? x = some s ∧ s.kind = .ruleStop ∧ s.rule = i := by
  have hlexes := LexerNetwork.ofRules_lexes rules
  have hself : ∀ x : Nat, x < (ofRules rules).network.network.states.size →
      (ofRules rules).network.network.state? x =
        (LexerNetwork.ofRules rules).network.state? x := fun _ _ => rfl
  constructor
  · rintro ⟨r, hr, hw⟩
    obtain ⟨start, stop, hstart, hstop, hreads⟩ :=
      hlexes.rule i r.pattern.language (by rw [List.getElem?_map, hr]; rfl)
    obtain ⟨k, hpath⟩ := (hreads _ hself).complete w hw
    exact ⟨start, Array.mem_toList_iff.mpr (Array.mem_of_getElem? hstart), k, stop, _, hpath, hstop,
      rfl, rfl⟩
  · rintro ⟨a, ha, k, x, s, hpath, hs, hkind, rfl⟩
    obtain ⟨j, hj, hja⟩ := List.mem_iff_getElem.mp ha
    rw [Array.length_toList] at hj
    have hcount : j < (rules.map fun r => r.pattern.language).length := by
      rw [← hlexes.size_eq]
      exact hj
    obtain ⟨start, stop, hstart, hstop, hreads⟩ :=
      hlexes.rule j _ (List.getElem?_eq_getElem hcount)
    have hsame : start = a := by
      have hja' := Array.getElem?_eq_getElem hj
      rw [← hja]
      exact Option.some.inj (hstart.symm.trans hja')
    -- The way reads a text of the pattern up to the stop state of the rule, and then a rest.
    obtain ⟨u, hu, v, l, rfl, -, hrest⟩ :=
      (hreads _ hself).sound k w x ⟨s, hs, hkind⟩ (hsame ▸ hpath)
    -- The stop state of the rule has no edges, so the way ends there.
    have hend : v = [] ∧ x = stop := by
      cases hrest with
      | refl => exact ⟨rfl, rfl⟩
      | move hmove _ =>
          obtain ⟨s', hs', e, he, -⟩ := hmove
          cases hstop.symm.trans hs'
          cases he
      | take htake _ =>
          obtain ⟨s', hs', e, he, -⟩ := htake
          cases hstop.symm.trans hs'
          cases he
    obtain ⟨rfl, rfl⟩ := hend
    cases hstop.symm.trans hs
    rw [List.getElem_map] at hu
    rw [List.length_map] at hcount
    rw [List.append_nil]
    exact ⟨_, List.getElem?_eq_getElem hcount, hu⟩

/-- The rules that are complete in the states after a text are those that match the text. -/
theorem Tracks.mem_rules_iff (h : (ofRules rules).Tracks w current) (i : RuleIndex) :
    i ∈ ((current.filterMap (ofRules rules).network.network.state?).filter
      fun s => s.kind = .ruleStop).map State.rule ↔ RuleMatches rules i w := by
  simp only [List.mem_map, List.mem_filter, List.mem_filterMap, decide_eq_true_eq]
  rw [ruleMatches_iff]
  constructor
  · rintro ⟨s, ⟨⟨x, hx, hs⟩, hkind⟩, hrule⟩
    obtain ⟨-, a, ha, k, hpath⟩ := (h x).mp hx
    exact ⟨a, ha, k, x, s, hpath, hs, hkind, hrule⟩
  · rintro ⟨a, ha, k, x, s, hpath, hs, hkind, hrule⟩
    exact ⟨s, ⟨⟨x, (h x).mpr ⟨Network.state?_lt hs, a, ha, k, hpath⟩, hs⟩, hkind⟩, hrule⟩

/-- The rule that is accepted is the first one that matches. -/
theorem Tracks.accepted_eq_some (h : (ofRules rules).Tracks w current) {i : RuleIndex}
    (haccepted : (ofRules rules).accepted current = some i) : FirstMatch rules i w := by
  obtain ⟨hmem, hleast⟩ := List.min?_eq_some_iff.mp haccepted
  refine ⟨(h.mem_rules_iff i).mp hmem, fun j hj hmatch => ?_⟩
  have hle := hleast j ((h.mem_rules_iff j).mpr hmatch)
  exact absurd hj (Nat.not_lt.mpr hle)

/-- If none is accepted, none matches. -/
theorem Tracks.accepted_eq_none (h : (ofRules rules).Tracks w current)
    (haccepted : (ofRules rules).accepted current = none) (i : RuleIndex) :
    ¬ RuleMatches rules i w := by
  intro hmatch
  have hmem := (h.mem_rules_iff i).mpr hmatch
  rw [List.min?_eq_none_iff.mp haccepted] at hmem
  cases hmem

end

end Lexer

/-! ### The longest match -/

/-- Among the prefixes of `cs` with at least one and at most `m` characters, this is the longest one
that a rule matches, with the first rule that matches it. -/
def Longest (rules : List LexerRule) (cs : List Char) (m : Nat) :
    Option (RuleIndex × Nat) → Prop
  | none => ∀ k, 0 < k → k ≤ m → ∀ i, ¬ RuleMatches rules i (cs.take k)
  | some (i, k) => 0 < k ∧ k ≤ m ∧ FirstMatch rules i (cs.take k) ∧
      ∀ k', k < k' → k' ≤ m → ∀ j, ¬ RuleMatches rules j (cs.take k')

namespace Longest

variable {rules : List LexerRule} {cs : List Char} {m m' : Nat} {best : Option (RuleIndex × Nat)}

/-- Longer prefixes that no rule matches make no difference. -/
theorem extend (h : Longest rules cs m best) (hle : m ≤ m')
    (hnone : ∀ k, m < k → k ≤ m' → ∀ i, ¬ RuleMatches rules i (cs.take k)) :
    Longest rules cs m' best := by
  match best with
  | none =>
      intro k hpos hk
      rcases Nat.lt_or_ge m k with hlt | hge
      · exact hnone k hlt hk
      · exact h k hpos hge
  | some (i, k) =>
      obtain ⟨hpos, hk, hfirst, hlonger⟩ := h
      refine ⟨hpos, Nat.le_trans hk hle, hfirst, fun k' hlt hk' => ?_⟩
      rcases Nat.lt_or_ge m k' with hlt' | hge
      · exact hnone k' hlt' hk'
      · exact hlonger k' hlt hge

/-- There is only one longest match. -/
theorem unique {best' : Option (RuleIndex × Nat)} (h : Longest rules cs m best)
    (h' : Longest rules cs m best') : best = best' := by
  match best, best' with
  | none, none => rfl
  | none, some (i, k) =>
      obtain ⟨hpos, hk, hfirst, -⟩ := h'
      exact absurd hfirst.1 (h k hpos hk i)
  | some (i, k), none =>
      obtain ⟨hpos, hk, hfirst, -⟩ := h
      exact absurd hfirst.1 (h' k hpos hk i)
  | some (i, k), some (i', k') =>
      obtain ⟨-, hk, hfirst, hlonger⟩ := h
      obtain ⟨-, hk', hfirst', hlonger'⟩ := h'
      obtain rfl : k = k' := by
        rcases Nat.lt_trichotomy k k' with hlt | heq | hlt
        · exact absurd hfirst'.1 (hlonger k' hlt hk' i')
        · exact heq
        · exact absurd hfirst.1 (hlonger' k hlt hk i)
      rw [hfirst.unique hfirst']

end Longest

/-- Scanning the rest of a text finds the longest match, if the part that was read was scanned. -/
theorem Lexer.scan_longest (rules : List LexerRule) (before rest : List Char)
    (current : List StateId) (best : Option (RuleIndex × Nat))
    (htracks : (ofRules rules).Tracks before current)
    (hbest : Longest rules (before ++ rest) before.length best) :
    Longest rules (before ++ rest) (before ++ rest).length
      ((ofRules rules).scan current before.length best rest) := by
  induction rest generalizing before current best with
  | nil =>
      rw [scan, List.append_nil] at *
      exact hbest
  | cons c rest ih =>
      have htake : (before ++ c :: rest).take (before.length + 1) = before ++ [c] := by
        simp [List.take_append]
      rw [scan]
      split
      · -- No way reads the character, so no rule matches a longer prefix.
        rename_i hmove
        refine hbest.extend (by simp) fun k hlt hk i hmatch => ?_
        obtain ⟨a, ha, l, x, s, hpath, -⟩ := ruleMatches_iff.mp hmatch
        obtain ⟨j, rfl⟩ : ∃ j, k = before.length + (j + 1) := ⟨k - before.length - 1, by omega⟩
        rw [List.take_length_add_append, List.take_succ_cons] at hpath
        exact htracks.no_path_of_move_eq_nil hmove _ ha l x hpath
      · have hnext := htracks.step c
        have hrest := ih (before ++ [c]) ((ofRules rules).closure ((ofRules rules).move current c))
        rw [List.append_assoc, List.length_append] at hrest
        refine hrest _ hnext ?_
        split
        · -- A rule is complete, and the new match is longer than the best one so far.
          rename_i i haccepted
          refine ⟨Nat.succ_pos _, Nat.le_refl _, ?_,
            fun k' hlt hk' => absurd hlt (Nat.not_lt.mpr hk')⟩
          rw [List.singleton_append, htake]
          exact hnext.accepted_eq_some haccepted
        · -- No rule is complete, and the best match stays.
          rename_i haccepted
          refine hbest.extend (Nat.le_succ _) fun k hlt hk => ?_
          obtain rfl : k = before.length + 1 := Nat.le_antisymm hk hlt
          rw [htake]
          exact hnext.accepted_eq_none haccepted

/-- The scan starts with nothing read and nothing matched. -/
theorem Lexer.longestMatch_longest (rules : List LexerRule) (cs : List Char) :
    Longest rules cs cs.length ((ofRules rules).longestMatch cs) :=
  scan_longest rules [] cs _ none (tracks_initial _) fun _ hpos hk =>
    absurd hpos (Nat.not_lt.mpr hk)

/-- A lexer finds the longest non-empty prefix that a rule matches, with the first rule that matches
it. It finds nothing just when no rule matches any non-empty prefix. -/
theorem longestMatch_is_maximal (rules : List LexerRule) (cs : List Char) :
    (∀ i k, (Lexer.ofRules rules).longestMatch cs = some (i, k) ↔
      0 < k ∧ k ≤ cs.length ∧ FirstMatch rules i (cs.take k) ∧
        ∀ k', k < k' → k' ≤ cs.length → ∀ j, ¬ RuleMatches rules j (cs.take k')) ∧
    ((Lexer.ofRules rules).longestMatch cs = none ↔
      ∀ k, 0 < k → k ≤ cs.length → ∀ i, ¬ RuleMatches rules i (cs.take k)) := by
  have h := Lexer.longestMatch_longest rules cs
  have hiff : ∀ best, (Lexer.ofRules rules).longestMatch cs = best ↔
      Longest rules cs cs.length best := by
    intro best
    constructor
    · rintro rfl
      exact h
    · exact fun hbest => h.unique hbest
  exact ⟨fun i k => hiff (some (i, k)), hiff none⟩

end Caret
