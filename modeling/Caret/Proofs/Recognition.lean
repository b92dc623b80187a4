import Caret.Proofs.Growth
import Caret.Proofs.Language

/-!
# `Caret.Proofs.Recognition`: the texts between two states

`n.Path k a w b` is a way of `k` edges from state `a` to state `b` that reads the text `w`.
`n.Recognizes L a b` says that a language is read between two states: there is a way from `a` to `b`
for every text of the language, and a way from `a` to the end of a rule passes `b` after reading a
text of the language. The second half speaks of the rest of the way, so it does not matter what
follows behind `b`.

There is one lemma for each way to put a network together: an edge, one piece behind another, a
choice and a loop. In a loop the ways get shorter with each round, which is why ways have lengths.
-/

set_option autoImplicit false

open scoped Computability

namespace Caret

namespace Network

/-! ### Ways -/

/-- An edge that reads nothing leads from one state to the other. -/
def Moves (n : Network) (a b : StateId) : Prop :=
  ∃ s, n.state? a = some s ∧ ∃ e ∈ s.edges, e.isEpsilon = true ∧ e.target = b

/-- An edge that reads the character leads from one state to the other. -/
def Takes (n : Network) (a : StateId) (c : Char) (b : StateId) : Prop :=
  ∃ s, n.state? a = some s ∧ ∃ e ∈ s.edges, e.admits Lexer.codePoints c.toNat = true ∧ e.target = b

/-- A way of so many edges that reads a text. -/
inductive Path (n : Network) : Nat → StateId → List Char → StateId → Prop where
  | refl (a : StateId) : Path n 0 a [] a
  | move {k : Nat} {a b z : StateId} {w : List Char} :
      n.Moves a b → Path n k b w z → Path n (k + 1) a w z
  | take {k : Nat} {a b z : StateId} {c : Char} {w : List Char} :
      n.Takes a c b → Path n k b w z → Path n (k + 1) a (c :: w) z

/-- The state ends a rule. -/
def IsStop (n : Network) (z : StateId) : Prop :=
  ∃ s, n.state? z = some s ∧ s.kind = .ruleStop

variable {n : Network} {a b z : StateId} {k : Nat} {w : List Char}

/-- Two ways one behind the other read both texts. -/
theorem Path.append {l : Nat} {v : List Char} (h : n.Path k a w b) (h' : n.Path l b v z) :
    n.Path (k + l) a (w ++ v) z := by
  induction h with
  | refl => simpa using h'
  | move hmove _ ih =>
      rw [Nat.add_right_comm]
      exact .move hmove (ih h')
  | take htake _ ih =>
      rw [Nat.add_right_comm]
      exact .take htake (ih h')

/-- A way from a state with known edges to the end of a rule starts with one of the edges. -/
theorem Path.exists_edge {edges : List Edge} (ha : n.Has a edges) (hz : n.IsStop z)
    (h : n.Path k a w z) : ∃ l, ∃ e ∈ edges, l < k ∧
      ((e.isEpsilon = true ∧ n.Path l e.target w z) ∨
        ∃ c v, w = c :: v ∧ e.admits Lexer.codePoints c.toNat = true ∧
          n.Path l e.target v z) := by
  obtain ⟨s, hs, hkind, rfl⟩ := ha
  cases h with
  | refl =>
      -- The way has an edge at least, since its first state does not end a rule.
      obtain ⟨s', hs', hstop⟩ := hz
      cases hs.symm.trans hs'
      exact absurd hstop hkind
  | @move l _ _ _ _ hmove hrest =>
      obtain ⟨s', hs', e, he, hepsilon, rfl⟩ := hmove
      cases hs.symm.trans hs'
      exact ⟨l, e, he, Nat.lt_succ_self l, Or.inl ⟨hepsilon, hrest⟩⟩
  | @take l _ _ _ c v htake hrest =>
      obtain ⟨s', hs', e, he, hadmits, rfl⟩ := htake
      cases hs.symm.trans hs'
      exact ⟨l, e, he, Nat.lt_succ_self l, Or.inr ⟨c, v, rfl, hadmits, hrest⟩⟩

/-! ### Languages between states -/

/-- The texts between two states are those of the language. -/
structure Recognizes (n : Network) (L : Language Char) (a b : StateId) : Prop where
  complete : ∀ u ∈ L, ∃ k, n.Path k a u b
  sound : ∀ k w z, n.IsStop z → n.Path k a w z →
    ∃ u ∈ L, ∃ v l, w = u ++ v ∧ l ≤ k ∧ n.Path l b v z

namespace Recognizes

variable {L L' : Language Char} {c : StateId}

/-- To stay at a state reads the empty text. -/
theorem refl (n : Network) (a : StateId) : n.Recognizes 1 a a where
  complete u hu := ⟨0, ((Language.mem_one u).mp hu) ▸ .refl a⟩
  sound k w _ _ h := ⟨[], Language.nil_mem_one, w, k, rfl, Nat.le_refl k, h⟩

/-- One piece behind the other. -/
theorem trans (h : n.Recognizes L a b) (h' : n.Recognizes L' b c) :
    n.Recognizes (L * L') a c where
  complete u hu := by
    obtain ⟨v, hv, v', hv', rfl⟩ := Language.mem_mul.mp hu
    obtain ⟨k, hpath⟩ := h.complete v hv
    obtain ⟨l, hpath'⟩ := h'.complete v' hv'
    exact ⟨k + l, hpath.append hpath'⟩
  sound k w z hz hpath := by
    obtain ⟨u, hu, v, l, rfl, hle, hrest⟩ := h.sound k w z hz hpath
    obtain ⟨u', hu', v', l', rfl, hle', hrest'⟩ := h'.sound l v z hz hrest
    exact ⟨u ++ u', Language.append_mem_mul hu hu', v', l', by rw [List.append_assoc],
      Nat.le_trans hle' hle, hrest'⟩

/-- One of several ways, each through a state of its own. -/
theorem choice {ways : List (StateId × Language Char)}
    (ha : n.Has a (ways.map fun way => .epsilon way.1))
    (hways : ∀ way ∈ ways, n.Recognizes way.2 way.1 b) :
    n.Recognizes (ways.map Prod.snd).sum a b where
  complete u hu := by
    obtain ⟨_, hL, hu⟩ := (mem_sum_languages _).mp hu
    obtain ⟨way, hway, rfl⟩ := List.mem_map.mp hL
    obtain ⟨k, hpath⟩ := (hways way hway).complete u hu
    obtain ⟨s, hs, -, hedges⟩ := ha
    have hmem : Edge.epsilon way.1 ∈ s.edges := hedges ▸ List.mem_map.mpr ⟨way, hway, rfl⟩
    exact ⟨k + 1, .move ⟨s, hs, _, hmem, rfl, rfl⟩ hpath⟩
  sound k w z hz hpath := by
    obtain ⟨l, e, he, hlt, hedge⟩ := hpath.exists_edge ha hz
    -- The first edge chooses the way.
    obtain ⟨way, hway, rfl⟩ := List.mem_map.mp he
    rcases hedge with ⟨-, hrest⟩ | ⟨c, v, -, hadmits, -⟩
    · obtain ⟨u, hu, v, l', hw, hle, hrest'⟩ := (hways way hway).sound l w z hz hrest
      have hsum : u ∈ (ways.map Prod.snd).sum :=
        (mem_sum_languages _).mpr ⟨way.2, List.mem_map.mpr ⟨way, hway, rfl⟩, hu⟩
      exact ⟨u, hsum, v, l', hw, by omega, hrest'⟩
    · cases hadmits

/-- A single edge that reads nothing. -/
theorem move {e : Edge} (ha : n.Has a [e]) (he : e.isEpsilon = true) :
    n.Recognizes 1 a e.target where
  complete u hu := by
    obtain ⟨s, hs, -, hedges⟩ := ha
    have hmem : e ∈ s.edges := hedges ▸ List.mem_singleton.mpr rfl
    rw [(Language.mem_one u).mp hu]
    exact ⟨1, .move ⟨s, hs, e, hmem, he, rfl⟩ (.refl _)⟩
  sound k w z hz hpath := by
    obtain ⟨l, e', he', hlt, hedge⟩ := hpath.exists_edge ha hz
    obtain rfl := List.mem_singleton.mp he'
    rcases hedge with ⟨-, hrest⟩ | ⟨c, v, -, hadmits, -⟩
    · exact ⟨[], Language.nil_mem_one, w, l, rfl, Nat.le_of_lt hlt, hrest⟩
    · rw [Edge.isEpsilon, Option.isNone_iff_eq_none] at he
      rw [Edge.admits, he] at hadmits
      cases hadmits

/-- A single edge that reads a character. -/
theorem read {label : Label} (ha : n.Has a [.read b label]) :
    n.Recognizes (singleChars fun c => label.admits Lexer.codePoints c.toNat) a b where
  complete := by
    rintro u ⟨c, hadmits, rfl⟩
    obtain ⟨s, hs, -, hedges⟩ := ha
    have hmem : Edge.read b label ∈ s.edges := hedges ▸ List.mem_singleton.mpr rfl
    exact ⟨1, .take ⟨s, hs, _, hmem, hadmits, rfl⟩ (.refl _)⟩
  sound k w z hz hpath := by
    obtain ⟨l, e, he, hlt, hedge⟩ := hpath.exists_edge ha hz
    obtain rfl := List.mem_singleton.mp he
    rcases hedge with ⟨hepsilon, -⟩ | ⟨c, v, rfl, hadmits, hrest⟩
    · cases hepsilon
    · exact ⟨[c], ⟨c, hadmits, rfl⟩, v, l, rfl, Nat.le_of_lt hlt, hrest⟩

/-- A loop: a decision that enters a piece which leads back, or leaves. -/
theorem loop {inside : StateId} (ha : n.Has a [.epsilon inside, .epsilon b])
    (hbody : n.Recognizes L inside a) : n.Recognizes L∗ a b where
  complete u hu := by
    obtain ⟨s, hs, -, hedges⟩ := ha
    obtain ⟨rounds, rfl, hrounds⟩ := Language.mem_kstar.mp hu
    clear hu
    induction rounds with
    | nil =>
        have hmem : Edge.epsilon b ∈ s.edges := by simp [hedges]
        exact ⟨1, .move ⟨s, hs, _, hmem, rfl, rfl⟩ (.refl b)⟩
    | cons u rounds ih =>
        have hmem : Edge.epsilon inside ∈ s.edges := by simp [hedges]
        obtain ⟨k, hpath⟩ := hbody.complete u (hrounds u List.mem_cons_self)
        obtain ⟨l, hrest⟩ := ih fun v hv => hrounds v (List.mem_cons_of_mem _ hv)
        exact ⟨k + l + 1, .move ⟨s, hs, _, hmem, rfl, rfl⟩ (hpath.append hrest)⟩
  sound k := by
    -- Each round leaves a shorter way from the decision.
    induction k using Nat.strong_induction_on with
    | _ k ih =>
        intro w z hz hpath
        obtain ⟨l, e, he, hlt, hedge⟩ := hpath.exists_edge ha hz
        simp only [List.mem_cons, List.not_mem_nil, or_false] at he
        rcases he with rfl | rfl
        · rcases hedge with ⟨-, hrest⟩ | ⟨c, v, -, hadmits, -⟩
          · obtain ⟨u, hu, v, l', rfl, hle, hback⟩ := hbody.sound l w z hz hrest
            obtain ⟨u', hu', v', l'', rfl, hle', hout⟩ :=
              ih l' (Nat.lt_of_le_of_lt hle hlt) v z hz hback
            have hstar : u ++ u' ∈ L∗ := by
              rw [← Language.one_add_self_mul_kstar_eq_kstar, Language.mem_add]
              exact Or.inr (Language.append_mem_mul hu hu')
            exact ⟨u ++ u', hstar, v', l'', by rw [List.append_assoc], by omega, hout⟩
          · cases hadmits
        · rcases hedge with ⟨-, hrest⟩ | ⟨c, v, -, hadmits, -⟩
          · exact ⟨[], Language.nil_mem_kstar L, w, l, rfl, Nat.le_of_lt hlt, hrest⟩
          · cases hadmits

end Recognizes

end Network

end Caret
