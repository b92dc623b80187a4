import Caret.Proofs.Tokenization

/-!
# `Caret.Proofs.Boundaries`: a text can be split where a match ends

A lexer cuts longest matches off the front of a text. A byte position where one of them ends is a
boundary (`Lexer.Boundary`), whether the match is kept as a token or dropped.

To find a longest match the lexer may read past the boundary before it falls back on the best match
so far. What stands there makes no difference: a match that ends in front of the cut is the longest
one of the text in front of the cut too (`Longest.of_append`), so a segmentation falls apart into
those of the two parts (`Segmentation.cut`). Where a text stands does not matter for its segments
(`Segmentation.shift`), and `tokenize_splits_at_boundaries` puts the two together.
-/

set_option autoImplicit false

namespace Caret

/-! ### Moving along a text -/

/-- The same piece of text so many bytes further on. -/
def TextRange.shift (d : Nat) (r : TextRange) : TextRange := ⟨d + r.start, d + r.stop⟩

/-- The token of a text that stands so many bytes further on. -/
def Token.shift (d : Nat) (t : Token) : Token := { t with range := t.range.shift d }

/-- The segment of a text that stands so many bytes further on. -/
def Segment.shift (d : Nat) (s : Segment) : Segment := { s with start := d + s.start }

/-- A segment makes the same token further on. Its rule decides whether it makes one, and where it
stands plays no part in that. -/
theorem Segment.token?_shift (rules : List LexerRule) (d : Nat) (s : Segment) :
    (s.shift d).token? rules = (s.token? rules).map (Token.shift d) := by
  have hstop : (s.shift d).stop = d + s.stop := Nat.add_assoc d s.start _
  -- A segment of a rule that is not there, or one that is dropped, makes no token in either place.
  cases hr : rules[s.rule]? with
  | none => simp [token?, shift, hr]
  | some r =>
      by_cases hskip : Command.skip ∈ r.commands
      · simp [token?, shift, hr, hskip]
      · simp [token?, shift, hr, hskip, Token.shift, TextRange.shift, ← hstop]

/-- The same for the tokens of many segments. -/
theorem Segment.filterMap_token?_shift (rules : List LexerRule) (d : Nat) (segs : List Segment) :
    (segs.map (shift d)).filterMap (token? rules) =
      (segs.filterMap (token? rules)).map (Token.shift d) := by
  rw [List.filterMap_map, List.map_filterMap]
  exact congrArg (List.filterMap · segs) (funext (token?_shift rules d))

/-- A text has the same segments wherever it stands. -/
theorem Segmentation.shift {rules : List LexerRule} {p q : Nat} {cs left : List Char}
    {segs : List Segment} (h : Segmentation rules p cs segs q left) (d : Nat) :
    Segmentation rules (d + p) cs (segs.map (Segment.shift d)) (d + q) left := by
  induction h with
  | stop hnone => exact .stop hnone
  | next hsome _ ih =>
      rw [← Nat.add_assoc] at ih
      exact .next hsome ih

/-! ### Cutting a text -/

/-- A byte position of a text, which is cut into longest matches: its start, or a position where one
of the matches ends. -/
inductive Lexer.Boundary (l : Lexer) : List Char → Nat → Prop where
  | start (cs : List Char) : Boundary l cs 0
  | next {cs : List Char} {i : RuleIndex} {k p : Nat} : l.longestMatch cs = some (i, k) →
      Boundary l (cs.drop k) p → Boundary l cs (byteLength (cs.take k) + p)

/-- The bytes of the two parts of a text add up. -/
theorem byteLength_take_add_drop (k : Nat) (cs : List Char) :
    byteLength (cs.take k) + byteLength (cs.drop k) = byteLength cs := by
  rw [← byteLength_append, List.take_append_drop]

/-- A beginning of a text that has no more bytes than another one has no more characters. -/
theorem le_length_of_byteLength_take_le {k : Nat} {u v : List Char} (hk : k ≤ (u ++ v).length)
    (h : byteLength ((u ++ v).take k) ≤ byteLength u) : k ≤ u.length := by
  by_contra hlt
  have hlonger : (u ++ v).take k = u ++ v.take (k - u.length) := by
    rw [List.take_append, List.take_of_length_le (by omega)]
  -- More characters are at least one byte more.
  have hmore : 0 < byteLength (v.take (k - u.length)) := by
    refine byteLength_pos fun hnil => ?_
    rw [List.length_append] at hk
    rcases List.take_eq_nil_iff.mp hnil with hzero | rfl
    · omega
    · simp only [List.length_nil] at hk
      omega
  rw [hlonger, byteLength_append] at h
  omega

/-- A longest match that ends in the first part of a text is the longest one of this part. -/
theorem Longest.of_append {rules : List LexerRule} {u v : List Char} {i : RuleIndex} {k : Nat}
    (h : Longest rules (u ++ v) (u ++ v).length (some (i, k))) (hk : k ≤ u.length) :
    Longest rules u u.length (some (i, k)) := by
  obtain ⟨hpos, -, hfirst, hlonger⟩ := h
  rw [List.take_append_of_le_length hk] at hfirst
  refine ⟨hpos, hk, hfirst, fun k' hlt hk' j hmatch => ?_⟩
  refine hlonger k' hlt ?_ j ?_
  · rw [List.length_append]
    exact Nat.le_add_right_of_le hk'
  · rwa [List.take_append_of_le_length hk']

/-- The segmentation of a text falls apart at a boundary into those of the two parts. -/
theorem Segmentation.cut {rules : List LexerRule} {p q : Nat} {u v left : List Char}
    {segs : List Segment} (h : Segmentation rules p (u ++ v) segs q left)
    (hcut : (Lexer.ofRules rules).Boundary (u ++ v) (byteLength u)) :
    ∃ front back, segs = front ++ back ∧ Segmentation rules p u front (p + byteLength u) [] ∧
      Segmentation rules (p + byteLength u) v back q left := by
  -- The text and the position are named, since both change in the induction.
  obtain ⟨cs, hcs⟩ : ∃ cs, cs = u ++ v := ⟨_, rfl⟩
  obtain ⟨b, hb⟩ : ∃ b, b = byteLength u := ⟨_, rfl⟩
  rw [← hcs, ← hb] at hcut
  rw [← hcs] at h
  -- By induction on the matches in front of the boundary.
  induction hcut generalizing p u segs with
  | start cs =>
      obtain rfl : u = [] := by
        by_contra hne
        exact absurd hb (Nat.ne_of_lt (byteLength_pos hne))
      subst hcs
      exact ⟨[], segs, rfl, .stop fun k hpos hk => absurd hpos (Nat.not_lt.mpr hk), h⟩
  | @next cs i k b' hmatch _ ih =>
      subst hcs
      have hlongest := Lexer.longestMatch_longest rules (u ++ v)
      rw [hmatch] at hlongest
      -- The match ends at the boundary or before it.
      have hk : k ≤ u.length := le_length_of_byteLength_take_le hlongest.2.1 (by omega)
      cases h with
      | stop hnone => cases hnone.unique hlongest
      | next hsome hrest =>
          cases hsome.unique hlongest
          have hbytes := byteLength_take_add_drop k u
          rw [List.take_append_of_le_length hk] at hb hrest ⊢
          obtain ⟨front, back, rfl, hfront, hback⟩ :=
            ih hrest (List.drop_append_of_le_length hk) (by omega)
          rw [Nat.add_assoc, hbytes] at hfront hback
          exact ⟨_ :: front, back, rfl, .next (hlongest.of_append hk) hfront, hback⟩

/-! ### Tokens -/

/-- Tokenizing succeeds if the loop from the start of the text does. An error is only worded
differently. -/
theorem Lexer.tokenize_eq_ok_iff (l : Lexer) (text : String) (tokens : List Token) :
    l.tokenize text = .ok tokens ↔ l.tokensFrom 0 text.toList = .ok tokens := by
  rw [tokenize]
  cases l.tokensFrom 0 text.toList <;> simp

/-- A text has tokens if its segmentation uses it up, and they are the tokens of the segments. -/
theorem Lexer.tokenize_eq_ok_iff_exists {rules : List LexerRule} {text : String}
    (hlen : byteLength text.toList < 2 ^ 32) (tokens : List Token) :
    (ofRules rules).tokenize text = .ok tokens ↔ ∃ segs q,
      Segmentation rules 0 text.toList segs q [] ∧
        tokens = segs.filterMap (Segment.token? rules) := by
  have hmax : 0 + byteLength text.toList ≤ nat32Max := by
    rw [Nat.zero_add]
    exact Nat.le_of_lt_succ hlen
  rw [tokenize_eq_ok_iff]
  constructor
  · intro h
    obtain ⟨segs, q, left, hsegs⟩ := Segmentation.exists_segmentation rules 0 text.toList
    rw [tokensFrom_eq hsegs hmax] at h
    -- There always is a segmentation. If some text is left, the lexer has failed there.
    cases left with
    | nil => exact ⟨segs, q, hsegs, (Except.ok.inj h).symm⟩
    | cons c left => cases h
  · rintro ⟨segs, q, hsegs, rfl⟩
    exact tokensFrom_eq hsegs hmax

/-- If a text has tokens and a match ends between two parts of it, then each part has tokens, and
those of the text are those of the first part, followed by those of the second part at the places
where they stand in the text. -/
theorem tokenize_splits_at_boundaries (rules : List LexerRule) (a b : String)
    (hlen : byteLength (a ++ b).toList < 2 ^ 32) {tokens : List Token}
    (h : (Lexer.ofRules rules).tokenize (a ++ b) = .ok tokens)
    (hcut : (Lexer.ofRules rules).Boundary (a ++ b).toList (byteLength a.toList)) :
    ∃ front back, (Lexer.ofRules rules).tokenize a = .ok front ∧
      (Lexer.ofRules rules).tokenize b = .ok back ∧
      tokens = front ++ back.map (Token.shift (byteLength a.toList)) := by
  obtain ⟨segs, q, hsegs, rfl⟩ := (Lexer.tokenize_eq_ok_iff_exists hlen tokens).mp h
  rw [String.toList_append] at hsegs hcut hlen
  rw [byteLength_append] at hlen
  obtain ⟨front, back, rfl, hfront, hback⟩ := hsegs.cut hcut
  obtain ⟨segs, q', left, hsegs'⟩ := Segmentation.exists_segmentation rules 0 b.toList
  -- The second part has the same segments where it stands in the text as on its own.
  obtain ⟨rfl, -, rfl⟩ := hback.unique
    (by simpa [Nat.add_comm] using hsegs'.shift (byteLength a.toList))
  refine ⟨_, _, (Lexer.tokenize_eq_ok_iff_exists (by omega) _).mpr ⟨_, _, hfront, rfl⟩,
    (Lexer.tokenize_eq_ok_iff_exists (by omega) _).mpr ⟨_, _, hsegs', rfl⟩, ?_⟩
  rw [List.filterMap_append, Segment.filterMap_token?_shift]

/-- A short and a long word with the same beginning, and letters that are dropped. -/
def overlappingRules : List LexerRule :=
  [.ofPattern "A" (.literal "a"), .ofPattern "ABC" (.literal "abc"),
    (LexerRule.ofPattern "B" (.literal "b")).skipped]

/-- The first match of `aba` is `a`, but only behind `ab` it is clear that it is not `abc`. -/
theorem overlapping_words_split :
    (Lexer.ofRules overlappingRules).tokenize ("a" ++ "ba") =
      .ok [⟨1, 0, "a", ⟨0, 1⟩⟩, ⟨1, 0, "a", ⟨2, 3⟩⟩] ∧
    (Lexer.ofRules overlappingRules).Boundary ("a" ++ "ba").toList (byteLength "a".toList) ∧
    ∃ front back, (Lexer.ofRules overlappingRules).tokenize "a" = .ok front ∧
      (Lexer.ofRules overlappingRules).tokenize "ba" = .ok back ∧
      [⟨1, 0, "a", ⟨0, 1⟩⟩, ⟨1, 0, "a", ⟨2, 3⟩⟩] =
        front ++ back.map (Token.shift (byteLength "a".toList)) := by
  have htokens : (Lexer.ofRules overlappingRules).tokenize ("a" ++ "ba") =
      .ok [⟨1, 0, "a", ⟨0, 1⟩⟩, ⟨1, 0, "a", ⟨2, 3⟩⟩] := by cbv
  have hmatch : (Lexer.ofRules overlappingRules).longestMatch ("a" ++ "ba").toList =
      some (0, 1) := by cbv
  have hcut : (Lexer.ofRules overlappingRules).Boundary ("a" ++ "ba").toList
      (byteLength "a".toList) := .next hmatch (.start _)
  exact ⟨htokens, hcut,
    tokenize_splits_at_boundaries overlappingRules "a" "ba" (by decide) htokens hcut⟩

end Caret
