import Mathlib
import Caret.Proofs.Derivation
import Caret.Proofs.IntervalSet

/-!
# `Caret.Proofs.Terminal`: labels of terminals

A terminal of a grammar becomes a label of the network. `labelOf_denotes` states that the label
stands for the token types of the terminal: it admits exactly these, and as a set it lists them in
ascending order. The numbers of token types must leave room for the number behind the last one.
-/

set_option autoImplicit false

namespace Caret

/-- The label admits exactly the listed symbols, and its set lists them in this order. -/
structure Label.Denotes (u : Universe) (l : Label) (ts : List TokenType) : Prop where
  admits_iff : ∀ t, l.admits u t = true ↔ t ∈ ts
  symbols_eq : ∃ set, l.symbols u = .ok set ∧ set.toList = ts

/-- The values of a label are the symbols that it denotes. -/
theorem Label.Denotes.values_eq {u : Universe} {l : Label} {ts : List TokenType}
    (h : l.Denotes u ts) : l.values u = ts := by
  obtain ⟨set, hset, hts⟩ := h.symbols_eq
  rw [values, hset, ← hts]

namespace Numbering

/-- The token types of a grammar are the numbers from one to the number of tokens. -/
theorem mem_tokenTypes (n : Numbering) (t : Int) :
    t ∈ n.tokenTypes ↔ 1 ≤ t ∧ t ≤ n.size := by
  simp only [tokenTypes, List.mem_map, List.mem_range]
  constructor
  · rintro ⟨i, hi, ht⟩
    have ht' : (i : Int) + 1 = t := ht
    omega
  · rintro ⟨hlow, hhigh⟩
    refine ⟨(t - 1).toNat, by omega, ?_⟩
    show ((t - 1).toNat : Int) + 1 = t
    omega

/-- Token types are listed in ascending order. -/
theorem pairwise_tokenTypes (n : Numbering) : List.Pairwise (α := Int) (· < ·) n.tokenTypes := by
  unfold tokenTypes
  rw [List.pairwise_map]
  refine List.pairwise_lt_range.imp ?_
  intro a b hab
  show (a : Int) + 1 < (b : Int) + 1
  omega

/-- With the end of the input in front, the token types are still in ascending order. -/
theorem pairwise_endOfInput_cons_tokenTypes (n : Numbering) :
    List.Pairwise (α := Int) (· < ·) (Caret.endOfInput :: n.tokenTypes) := by
  refine List.pairwise_cons.mpr ⟨fun t ht => ?_, n.pairwise_tokenTypes⟩
  have hlow := ((n.mem_tokenTypes t).mp ht).1
  show (-1 : Int) < t
  omega

/-- The type that a lexer rule gets, whatever the rule is found by. -/
theorem le_size_of_findIdx? (n : Numbering) (p : LexerRule → Bool) (t : Int)
    (h : Option.map (fun i => (n.literals.length : Int) + i + 1)
      ((n.lexerRules.findIdx? p).bind fun (i : Nat) => some (i : Int)) = some t) :
    1 ≤ t ∧ t ≤ n.size := by
  cases hi : n.lexerRules.findIdx? p with
  | none => simp [hi] at h
  | some i =>
      have hlt : i < n.lexerRules.length := (List.findIdx?_eq_some_iff_getElem.mp hi).1
      simp only [hi, Option.bind_some, Option.map_some, Option.some.injEq] at h
      rw [size]
      omega

/-- A symbol names a token type of the grammar or the end of the input. -/
theorem mem_of_typeOf? {n : Numbering} {s : Symbol} {t : Int} (h : n.typeOf? s = some t) :
    t ∈ Caret.endOfInput :: n.tokenTypes := by
  rw [List.mem_cons, mem_tokenTypes]
  cases s with
  | endOfInput => exact Or.inl (Option.some.inj h).symm
  | token name => exact Or.inr (n.le_size_of_findIdx? _ t h)
  | literal text =>
      right
      simp only [typeOf?, literalType?] at h
      split at h
      · rename_i i hi
        have hlt : i < n.literals.length := (List.findIdx?_eq_some_iff_getElem.mp hi).1
        have ht : (i : Int) + 1 = t := Option.some.inj h
        rw [size]
        omega
      · exact n.le_size_of_findIdx? _ t h

end Numbering

namespace Source

/-- A symbol that is resolved is resolved to the token type it names. -/
theorem typeOf?_of_tokenTypeOf {n : Numbering} {rule : String} {s : Symbol} {t : TokenType}
    (h : tokenTypeOf n rule s = .ok t) : n.typeOf? s = some t := by
  cases s with
  | endOfInput => exact congrArg some (Except.ok.inj h)
  | token name =>
      simp only [tokenTypeOf] at h
      split at h
      · rename_i t' ht
        rw [← Except.ok.inj h]
        exact ht
      · cases h
  | literal text =>
      simp only [tokenTypeOf] at h
      split at h
      · cases h
      · split at h
        · rename_i t' ht
          rw [← Except.ok.inj h]
          exact ht
        · cases h

/-- The resolved token types of a list of symbols are those that the symbols name. -/
theorem mem_iff_names {n : Numbering} {rule : String} {symbols : List Symbol}
    {ts : List TokenType} (h : symbols.mapM (tokenTypeOf n rule) = .ok ts) (t : Int) :
    t ∈ ts ↔ n.names symbols t = true := by
  induction symbols generalizing ts with
  | nil =>
      rw [List.mapM_nil] at h
      rw [← Except.ok.inj h]
      simp [Numbering.names]
  | cons s symbols ih =>
      rw [List.mapM_cons] at h
      cases hs : tokenTypeOf n rule s with
      | error e => rw [hs] at h; cases h
      | ok t' =>
          cases hrest : symbols.mapM (tokenTypeOf n rule) with
          | error e => rw [hs, hrest] at h; cases h
          | ok ts' =>
              rw [hs, hrest] at h
              rw [← Except.ok.inj h, List.mem_cons, ih hrest]
              have hhead : n.names (s :: symbols) t =
                  (decide (t' = t) || n.names symbols t) := by
                simp [Numbering.names, typeOf?_of_tokenTypeOf hs]
              rw [hhead, Bool.or_eq_true, decide_eq_true_eq, eq_comm]

/-- The label of a terminal denotes the token types of the terminal. -/
theorem labelOf_denotes {n : Numbering} {rule : String} {a : Terminal} {l : Label}
    (hsize : n.size < 2 ^ 31 - 2) (h : labelOf n rule a = .ok l) :
    l.Denotes ⟨firstTokenType, n.size⟩ (n.symbolsOf a) := by
  have hhigh : (n.size : Int) < int32Max := by simp only [int32Max]; omega
  have hin : ∀ t : Int, Universe.contains ⟨firstTokenType, n.size⟩ t = true ↔ t ∈ n.tokenTypes := by
    intro t
    rw [Numbering.mem_tokenTypes, Universe.contains, Bool.and_eq_true, decide_eq_true_eq,
      decide_eq_true_eq]
    rfl
  -- For each kind of terminal: what the label admits, and the set that it lists. The set is
  -- canonical, so its list is known from its members.
  cases a with
  | any =>
      rw [← Except.ok.inj h]
      refine ⟨hin, ?_⟩
      obtain ⟨set, hset, hcanonical, hmem⟩ := IntervalSet.closed?_spec firstTokenType hhigh
      refine ⟨set, hset, IntervalSet.toList_eq_of_mem_iff hcanonical n.pairwise_tokenTypes ?_⟩
      intro t
      rw [hmem, Numbering.symbolsOf, Numbering.mem_tokenTypes]
      rfl
  | one s =>
      simp only [labelOf] at h
      cases hs : tokenTypeOf n rule s with
      | error e => rw [hs] at h; cases h
      | ok t =>
          rw [hs] at h
          rw [← Except.ok.inj h]
          have htype := typeOf?_of_tokenTypeOf hs
          -- The set of one value needs the number behind it.
          have hlt : t < int32Max := by
            rcases List.mem_cons.mp (Numbering.mem_of_typeOf? htype) with rfl | hmem
            · simp [Caret.endOfInput, int32Max]
            · exact lt_of_le_of_lt ((n.mem_tokenTypes t).mp hmem).2 hhigh
          rw [Numbering.symbolsOf, htype, Option.toList_some]
          refine ⟨fun u => by simp [Label.admits, eq_comm], ?_⟩
          obtain ⟨set, hset, hcanonical, hmem⟩ := IntervalSet.ofValue?_spec hlt
          refine ⟨set, hset, IntervalSet.toList_eq_of_mem_iff hcanonical (by simp) ?_⟩
          intro u
          rw [hmem, List.mem_singleton]
  | oneOf symbols =>
      simp only [labelOf] at h
      cases hs : symbols.mapM (tokenTypeOf n rule) with
      | error e => rw [hs] at h; cases h
      | ok ts =>
          rw [hs] at h
          rw [← Except.ok.inj h]
          obtain ⟨hcanonical, hmem⟩ := IntervalSet.ofList_spec ts
          -- A token type that is named is one of the grammar or the end of the input.
          have hfilter : ∀ t, t ∈ IntervalSet.ofList ts ↔
              t ∈ (Caret.endOfInput :: n.tokenTypes).filter (n.names symbols) := by
            intro t
            rw [hmem, mem_iff_names hs, List.mem_filter]
            refine ⟨fun hnamed => ⟨?_, hnamed⟩, And.right⟩
            obtain ⟨s, -, ht⟩ := List.any_eq_true.mp hnamed
            exact Numbering.mem_of_typeOf? (of_decide_eq_true ht)
          refine ⟨fun t => (IntervalSet.contains_iff hcanonical t).trans (hfilter t), ?_⟩
          exact ⟨_, rfl, IntervalSet.toList_eq_of_mem_iff hcanonical
            (n.pairwise_endOfInput_cons_tokenTypes.filter _) hfilter⟩
  | noneOf symbols =>
      simp only [labelOf] at h
      cases hs : symbols.mapM (tokenTypeOf n rule) with
      | error e => rw [hs] at h; cases h
      | ok ts =>
          rw [hs] at h
          rw [← Except.ok.inj h]
          obtain ⟨hcanonical, hmem⟩ := IntervalSet.ofList_spec ts
          -- The set holds what is named. The label admits the rest of the alphabet, which does not
          -- include the end of the input.
          have hout : ∀ t, t ∉ IntervalSet.ofList ts ↔ (!n.names symbols t) = true := by
            intro t
            rw [hmem, mem_iff_names hs]
            simp
          refine ⟨fun t => ?_, ?_⟩
          · have hcontains : (IntervalSet.ofList ts).contains t = false ↔
                t ∉ IntervalSet.ofList ts := by
              rw [← IntervalSet.contains_iff hcanonical, Bool.not_eq_true]
            rw [Label.admits, Bool.and_eq_true, hin, Bool.not_eq_true', hcontains, hout,
              Numbering.symbolsOf, List.mem_filter]
          · obtain ⟨set, hset, hset', hleft⟩ :=
              IntervalSet.complement?_spec (.ofList ts) firstTokenType hhigh
            refine ⟨set, hset, IntervalSet.toList_eq_of_mem_iff hset'
              (n.pairwise_tokenTypes.filter _) ?_⟩
            intro t
            rw [hleft, hout, Numbering.symbolsOf, List.mem_filter, Numbering.mem_tokenTypes]
            rfl

end Source

end Caret
