import Caret.Proofs.Lines
import Caret.Proofs.MaximalMunch

/-!
# `Caret.Proofs.Tokenization`: tokens tile the text

`Segmentation rules p cs segs q left` cuts the text `cs`, which stands at byte position `p`, into
segments from the front: each segment is the longest match where it starts. It ends at byte position
`q`, where the text is used up or no rule matches what is left. Every text has exactly one
segmentation.

`tokensFrom_eq` reads the tokens off the segmentation. If nothing is left they are the segments of
the rules that are not skipped. Otherwise the first character that is left is the error.
`tokenize_tiles` puts this together with the places of the tokens (`Tiling`) and of the error.
-/

set_option autoImplicit false

namespace Caret

/-! ### Segments -/

/-- A piece of text that a rule matched, at a byte position. -/
structure Segment where
  rule : RuleIndex
  start : Nat
  text : List Char

/-- The byte position behind the segment. -/
def Segment.stop (s : Segment) : Nat := s.start + byteLength s.text

/-- The rule of the segment drops its text. -/
def Segment.Skipped (rules : List LexerRule) (s : Segment) : Prop :=
  ∃ r, rules[s.rule]? = some r ∧ Command.skip ∈ r.commands

/-- The token of a segment, unless its rule drops it. -/
def Segment.token? (rules : List LexerRule) (s : Segment) : Option Token :=
  match rules[s.rule]? with
  | none => none
  | some r =>
      if .skip ∈ r.commands then none
      else
        let out := LexerOutput.ofCommands (s.rule + 1) r.commands
        some ⟨out.tokenType, out.channel, String.ofList s.text, ⟨s.start, s.stop⟩⟩

/-- Cut a text into longest matches until it is used up or no rule matches. -/
inductive Segmentation (rules : List LexerRule) :
    Nat → List Char → List Segment → Nat → List Char → Prop where
  | stop {p : Nat} {cs : List Char} :
      Longest rules cs cs.length none → Segmentation rules p cs [] p cs
  | next {p q : Nat} {cs left : List Char} {segs : List Segment} {i : RuleIndex} {k : Nat} :
      Longest rules cs cs.length (some (i, k)) →
      Segmentation rules (p + byteLength (cs.take k)) (cs.drop k) segs q left →
        Segmentation rules p cs (⟨i, p, cs.take k⟩ :: segs) q left

namespace Segmentation

variable {rules : List LexerRule} {p q : Nat} {cs left : List Char} {segs : List Segment}

/-- Every text has a segmentation. -/
theorem exists_segmentation (rules : List LexerRule) (p : Nat) (cs : List Char) :
    ∃ segs q left, Segmentation rules p cs segs q left := by
  induction hn : cs.length using Nat.strong_induction_on generalizing p cs with
  | _ n ih =>
      have hlongest := Lexer.longestMatch_longest rules cs
      cases hbest : (Lexer.ofRules rules).longestMatch cs with
      | none => exact ⟨[], p, cs, .stop (hbest ▸ hlongest)⟩
      | some best =>
          obtain ⟨i, k⟩ := best
          rw [hbest] at hlongest
          obtain ⟨hpos, hk, -⟩ := id hlongest
          -- A match is not empty, so there is less to cut behind it.
          have hshorter : (cs.drop k).length < n := by
            rw [List.length_drop]
            omega
          obtain ⟨segs, q, left, hrest⟩ := ih _ hshorter (p + byteLength (cs.take k)) _ rfl
          exact ⟨_, q, left, .next hlongest hrest⟩

/-- It has only one, since longest matches are unique. -/
theorem unique (h : Segmentation rules p cs segs q left) {segs' : List Segment} {q' : Nat}
    {left' : List Char} (h' : Segmentation rules p cs segs' q' left') :
    segs' = segs ∧ q' = q ∧ left' = left := by
  induction h generalizing segs' with
  | stop hnone =>
      cases h' with
      | stop => exact ⟨rfl, rfl, rfl⟩
      | next hsome _ => cases hnone.unique hsome
  | next hsome _ ih =>
      cases h' with
      | stop hnone => cases hnone.unique hsome
      | next hsome' hrest' =>
          cases hsome.unique hsome'
          obtain ⟨rfl, rfl, rfl⟩ := ih hrest'
          exact ⟨rfl, rfl, rfl⟩

/-- The segments make up the text in front of what is left. -/
theorem flatMap_text (h : Segmentation rules p cs segs q left) :
    segs.flatMap Segment.text ++ left = cs ∧ p + byteLength (segs.flatMap Segment.text) = q := by
  induction h with
  | stop => exact ⟨rfl, rfl⟩
  | next _ _ ih =>
      obtain ⟨htext, hend⟩ := ih
      rw [List.flatMap_cons, List.append_assoc, htext, List.take_append_drop, byteLength_append,
        ← Nat.add_assoc, hend]
      exact ⟨rfl, rfl⟩

/-- No segment is empty, and each stands in the text at its byte position. -/
theorem of_mem (h : Segmentation rules p cs segs q left) {s : Segment} (hs : s ∈ segs) :
    s.text ≠ [] ∧ ∃ before after, cs = before ++ s.text ++ after ∧
      s.start = p + byteLength before := by
  induction h with
  | stop => cases hs
  | @next p q cs left segs i k hlongest _ ih =>
      rcases List.mem_cons.mp hs with rfl | hs
      · obtain ⟨hpos, hk, -⟩ := hlongest
        refine ⟨?_, [], cs.drop k, (List.take_append_drop k cs).symm, rfl⟩
        simp only [ne_eq, List.take_eq_nil_iff, not_or]
        refine ⟨Nat.ne_of_gt hpos, ?_⟩
        rintro rfl
        exact absurd hpos (Nat.not_lt.mpr hk)
      · obtain ⟨hne, before, after, htext, hstart⟩ := ih hs
        refine ⟨hne, cs.take k ++ before, after, ?_, ?_⟩
        · rw [List.append_assoc, List.append_assoc, ← List.append_assoc before, ← htext,
            List.take_append_drop]
        · rw [hstart, byteLength_append, Nat.add_assoc]

/-- The segments stand one behind the other. -/
theorem pairwise (h : Segmentation rules p cs segs q left) :
    segs.Pairwise fun s t => s.stop ≤ t.start := by
  induction h with
  | stop => exact .nil
  | next _ hrest ih =>
      refine List.pairwise_cons.mpr ⟨fun s hs => ?_, ih⟩
      obtain ⟨-, before, after, -, hstart⟩ := hrest.of_mem hs
      rw [hstart]
      exact Nat.le_add_right _ _

/-- Every byte in front of the end lies in a segment. -/
theorem exists_mem_of_lt (h : Segmentation rules p cs segs q left) {offset : Nat} (hp : p ≤ offset)
    (hq : offset < q) : ∃ s ∈ segs, s.start ≤ offset ∧ offset < s.stop := by
  induction h with
  | stop => omega
  | @next p q cs left segs i k _ _ ih =>
      rcases Nat.lt_or_ge offset (p + byteLength (cs.take k)) with hlt | hge
      · exact ⟨_, List.mem_cons_self, hp, hlt⟩
      · obtain ⟨s, hs, hrange⟩ := ih hge hq
        exact ⟨s, List.mem_cons_of_mem _ hs, hrange⟩

/-- A segment belongs to a rule of the lexer. -/
theorem exists_rule (h : Segmentation rules p cs segs q left) {s : Segment} (hs : s ∈ segs) :
    ∃ r, rules[s.rule]? = some r := by
  induction h with
  | stop => cases hs
  | next hlongest _ ih =>
      rcases List.mem_cons.mp hs with rfl | hs
      · obtain ⟨-, -, ⟨⟨r, hr, -⟩, -⟩, -⟩ := hlongest
        exact ⟨r, hr⟩
      · exact ih hs

end Segmentation

/-! ### Tokens -/

/-- A token is dropped if one of the commands says so, wherever it stands. -/
theorem LexerOutput.skip_ofCommands (t : TokenType) (cs : List Command) :
    (LexerOutput.ofCommands t cs).skip = true ↔ .skip ∈ cs := by
  suffices hfold : ∀ out : LexerOutput,
      (cs.foldl apply out).skip = true ↔ out.skip = true ∨ .skip ∈ cs by
    rw [ofCommands, hfold]
    simp
  induction cs with
  | nil => simp
  | cons c cs ih =>
      intro out
      rw [List.foldl_cons, ih]
      cases c <;> simp [apply]

/-- A rule puts out its number and what its commands make of it. -/
theorem Lexer.getElem?_outputs_ofRules (rules : List LexerRule) (i : Nat) :
    (ofRules rules).outputs[i]? =
      rules[i]?.map fun r => .ofCommands (i + 1) r.commands := by
  simp [ofRules]

/-- The longest match is cut off, and its token comes in front of the others. -/
theorem Lexer.tokensFrom_next {rules : List LexerRule} {p : Nat} {cs : List Char} {i k : Nat}
    (hmatch : (ofRules rules).longestMatch cs = some (i, k)) (hpos : 0 < k) (hk : k ≤ cs.length)
    {r : LexerRule} (hr : rules[i]? = some r) (hlen : p + byteLength (cs.take k) ≤ nat32Max) :
    (ofRules rules).tokensFrom p cs =
      ((ofRules rules).tokensFrom (p + byteLength (cs.take k)) (cs.drop k)).map fun tokens =>
        (Segment.token? rules ⟨i, p, cs.take k⟩).toList ++ tokens := by
  obtain ⟨k, rfl⟩ : ∃ l, k = l + 1 := ⟨k - 1, by omega⟩
  cases cs with
  | nil => exact absurd hpos (Nat.not_lt.mpr hk)
  | cons c cs =>
      have hout : (ofRules rules).outputs[i]? = some (.ofCommands (i + 1) r.commands) := by
        rw [getElem?_outputs_ofRules, hr]
        rfl
      rw [List.take_succ_cons] at hlen ⊢
      rw [List.drop_succ_cons, tokensFrom, hmatch]
      simp only [hout]
      cases (ofRules rules).tokensFrom (p + byteLength (c :: cs.take k)) (cs.drop k) with
      | error e => rfl
      | ok tokens =>
          have hstart : textOffset p = p := textOffset_eq (by omega)
          -- A dropped match leaves the other tokens as they are.
          by_cases hskip : Command.skip ∈ r.commands
          · simp [Segment.token?, hr, hskip, (LexerOutput.skip_ofCommands _ _).mpr hskip,
              Except.map]
          · have hkept : (LexerOutput.ofCommands (i + 1) r.commands).skip = false := by
              rw [← Bool.not_eq_true, LexerOutput.skip_ofCommands]
              exact hskip
            simp [Segment.token?, hr, hskip, hkept, Except.map, TextRange.ofIndices, hstart,
              textOffset_eq hlen, Segment.stop]

/-- What comes of a segmentation that ends at a byte position with some text left. -/
def Segment.outcome (rules : List LexerRule) (segs : List Segment) (q : Nat) :
    List Char → Except (Nat × Char) (List Token)
  | [] => .ok (segs.filterMap (token? rules))
  | c :: _ => .error (q, c)

/-- The tokens are those of the segments, or the first character that is left is the error. -/
theorem tokensFrom_eq {rules : List LexerRule} {p q : Nat} {cs left : List Char}
    {segs : List Segment} (h : Segmentation rules p cs segs q left)
    (hlen : p + byteLength cs ≤ nat32Max) :
    (Lexer.ofRules rules).tokensFrom p cs = Segment.outcome rules segs q left := by
  induction h with
  | @stop p cs hnone =>
      cases cs with
      | nil => rw [Lexer.tokensFrom]; rfl
      | cons c cs =>
          have hmatch := (Lexer.longestMatch_longest rules (c :: cs)).unique hnone
          rw [Lexer.tokensFrom, hmatch]
          rfl
  | @next p q cs left segs i k hsome _ ih =>
      -- The scan and the segmentation both name a longest match, so they name the same one.
      have hmatch := (Lexer.longestMatch_longest rules cs).unique hsome
      obtain ⟨hpos, hk, ⟨⟨r, hr, -⟩, -⟩, -⟩ := hsome
      have hsplit : byteLength cs = byteLength (cs.take k) + byteLength (cs.drop k) := by
        rw [← byteLength_append, List.take_append_drop]
      rw [Lexer.tokensFrom_next hmatch hpos hk hr (by omega), ih (by omega)]
      cases left with
      | nil =>
          cases htoken : Segment.token? rules ⟨i, p, cs.take k⟩ <;>
            simp [Segment.outcome, Except.map, htoken]
      | cons c left => rfl

/-! ### The text -/

/-- Tokens stand in a text: none is empty, each one stands behind those before it, and each begins
and ends between characters. What lies in none of them are the dropped segments. -/
structure Tiling (rules : List LexerRule) (cs : List Char) (segs : List Segment)
    (tokens : List Token) : Prop where
  nonempty : ∀ t ∈ tokens, t.range.start < t.range.stop
  ascending : tokens.Pairwise fun t u => t.range.stop ≤ u.range.start
  boundaries : ∀ t ∈ tokens, ∃ before after, cs = before ++ t.text.toList ++ after ∧
    t.range = ⟨byteLength before, byteLength (before ++ t.text.toList)⟩
  gaps : ∀ offset < byteLength cs, (∀ t ∈ tokens, t.range.contains offset = false) ↔
    ∃ s ∈ segs, s.Skipped rules ∧ s.start ≤ offset ∧ offset < s.stop

/-- A segment that is not dropped is a token with its text and its place. -/
theorem Segment.token?_eq_some_iff {rules : List LexerRule} {s : Segment} {r : LexerRule}
    (hr : rules[s.rule]? = some r) (t : Token) :
    s.token? rules = some t ↔ ¬ s.Skipped rules ∧
      t = ⟨(LexerOutput.ofCommands (s.rule + 1) r.commands).tokenType,
        (LexerOutput.ofCommands (s.rule + 1) r.commands).channel, String.ofList s.text,
        ⟨s.start, s.stop⟩⟩ := by
  have hskipped : s.Skipped rules ↔ .skip ∈ r.commands := by
    simp [Skipped, hr]
  rw [hskipped, token?, hr]
  by_cases hskip : Command.skip ∈ r.commands <;> simp [hskip, eq_comm]

/-- The tokens of a segmentation that uses the text up tile the text. -/
theorem Segmentation.tiling {rules : List LexerRule} {cs : List Char} {segs : List Segment}
    {q : Nat} (h : Segmentation rules 0 cs segs q []) :
    Tiling rules cs segs (segs.filterMap (Segment.token? rules)) := by
  have hrange : ∀ s ∈ segs, ∀ t, s.token? rules = some t →
      ¬ s.Skipped rules ∧ t.text.toList = s.text ∧ t.range = ⟨s.start, s.stop⟩ := by
    intro s hs t ht
    obtain ⟨r, hr⟩ := h.exists_rule hs
    obtain ⟨hkept, rfl⟩ := (Segment.token?_eq_some_iff hr t).mp ht
    exact ⟨hkept, String.toList_ofList, rfl⟩
  -- The text is used up, so the last segment ends with it.
  have hend : q = byteLength cs := by
    obtain ⟨htext, hq⟩ := h.flatMap_text
    rw [List.append_nil] at htext
    rw [← hq, htext, Nat.zero_add]
  have hmem : ∀ t, t ∈ segs.filterMap (Segment.token? rules) ↔
      ∃ s ∈ segs, s.token? rules = some t := fun t => List.mem_filterMap
  have hcontains : ∀ (s : Segment) (offset : Nat),
      TextRange.contains ⟨s.start, s.stop⟩ offset = true ↔ s.start ≤ offset ∧ offset < s.stop := by
    simp [TextRange.contains]
  refine ⟨fun t ht => ?_, ?_, fun t ht => ?_, fun offset hlt => ⟨fun hnone => ?_, ?_⟩⟩
  · obtain ⟨s, hs, htoken⟩ := (hmem t).mp ht
    rw [(hrange s hs t htoken).2.2]
    exact Nat.lt_add_of_pos_right (byteLength_pos (h.of_mem hs).1)
  · refine List.pairwise_filterMap.mpr (h.pairwise.imp_of_mem ?_)
    intro s s' hs hs' hle t ht t' ht'
    rw [(hrange s hs t ht).2.2, (hrange s' hs' t' ht').2.2]
    exact hle
  · obtain ⟨s, hs, htoken⟩ := (hmem t).mp ht
    obtain ⟨-, htext, hrange'⟩ := hrange s hs t htoken
    obtain ⟨-, before, after, hcs, hstart⟩ := h.of_mem hs
    refine ⟨before, after, by rw [htext, hcs], ?_⟩
    rw [hrange', htext, Segment.stop, hstart, byteLength_append, Nat.zero_add]
  · obtain ⟨s, hs, hin⟩ := h.exists_mem_of_lt (Nat.zero_le offset) (hend ▸ hlt)
    refine ⟨s, hs, ?_, hin⟩
    -- A byte in a segment that is kept would lie in a token.
    by_contra hkept
    obtain ⟨r, hr⟩ := h.exists_rule hs
    have htoken := (Segment.token?_eq_some_iff hr _).mpr ⟨hkept, rfl⟩
    have hout := hnone _ ((hmem _).mpr ⟨s, hs, htoken⟩)
    rw [(hcontains s offset).mpr hin] at hout
    cases hout
  · -- A segment that is dropped and one that is kept are different, so they are apart.
    rintro ⟨s, hs, hskipped, hlow, hhigh⟩ t ht
    obtain ⟨s', hs', htoken⟩ := (hmem t).mp ht
    obtain ⟨hkept, -, hrange'⟩ := hrange s' hs' t htoken
    have hne : s ≠ s' := by
      rintro rfl
      exact hkept hskipped
    have hsymm : Std.Symm fun s s' : Segment => s.stop ≤ s'.start ∨ s'.stop ≤ s.start :=
      ⟨fun _ _ => Or.symm⟩
    have hpairs : segs.Pairwise fun s s' => s.stop ≤ s'.start ∨ s'.stop ≤ s.start :=
      h.pairwise.imp Or.inl
    have hapart := hpairs.forall hs hs' hne
    rw [hrange', ← Bool.not_eq_true, hcontains]
    omega

/-- A text has one segmentation into longest matches. If it uses the text up, the tokens are its
segments without the dropped ones, and they tile the text. Otherwise the first character behind the
segments is reported with its place. -/
theorem tokenize_tiles (rules : List LexerRule) (text : String)
    (hlen : byteLength text.toList < 2 ^ 32) :
    ∃ segs q left, Segmentation rules 0 text.toList segs q left ∧
      (∀ segs' q' left', Segmentation rules 0 text.toList segs' q' left' →
        segs' = segs ∧ q' = q ∧ left' = left) ∧
      (left = [] →
        (Lexer.ofRules rules).tokenize text = .ok (segs.filterMap (Segment.token? rules)) ∧
          Tiling rules text.toList segs (segs.filterMap (Segment.token? rules))) ∧
      ∀ c rest, left = c :: rest →
        (∃ before, text.toList = before ++ c :: rest ∧ byteLength before = q) ∧
          ∃ place, LiesAt text.toList q place ∧ (Lexer.ofRules rules).tokenize text =
            .error ⟨⟨q, q + c.utf8Size⟩, place.line + 1, place.column, c⟩ := by
  obtain ⟨segs, q, left, h⟩ := Segmentation.exists_segmentation rules 0 text.toList
  have hmax : byteLength text.toList ≤ nat32Max := Nat.le_of_lt_succ hlen
  have htokens := tokensFrom_eq h (by rwa [Nat.zero_add])
  refine ⟨segs, q, left, h, fun segs' q' left' h' => h.unique h', ?_, ?_⟩
  · rintro rfl
    refine ⟨?_, h.tiling⟩
    rw [Lexer.tokenize, htokens]
    rfl
  · rintro c rest rfl
    obtain ⟨htext, hq⟩ := h.flatMap_text
    rw [Nat.zero_add] at hq
    have hsize : q + c.utf8Size ≤ byteLength text.toList := by
      rw [← htext, byteLength_append, hq, byteLength]
      omega
    refine ⟨⟨_, htext.symm, hq⟩, _, Lines.position_liesAt text hmax (by omega), ?_⟩
    rw [Lexer.tokenize, htokens]
    simp only [Segment.outcome, LexicalError.ofPosition, TextRange.ofIndices,
      textOffset_eq (show q ≤ nat32Max by omega), textOffset_eq (Nat.le_trans hsize hmax)]

/-- Words without blanks and exclamation marks, and blanks that are dropped. -/
def wordRules : List LexerRule :=
  [.ofPattern "WORD" (.oneOrMore (.noneOf (.ofChars " !\n"))),
    (LexerRule.ofPattern "BLANK" (.oneOrMore (.oneOf .whitespace))).skipped]

/-- Two words with a blank between them tile their text. Behind a word and a line end, an
exclamation mark is an error at the start of the second line. -/
theorem words_tile :
    (∃ segs q, Segmentation wordRules 0 "é b".toList segs q [] ∧
      segs.filterMap (Segment.token? wordRules) =
        [⟨1, 0, "é", ⟨0, 2⟩⟩, ⟨1, 0, "b", ⟨3, 4⟩⟩] ∧
      Tiling wordRules "é b".toList segs [⟨1, 0, "é", ⟨0, 2⟩⟩, ⟨1, 0, "b", ⟨3, 4⟩⟩]) ∧
    ∃ segs rest, Segmentation wordRules 0 "b\n!".toList segs 2 ('!' :: rest) ∧
      LiesAt "b\n!".toList 2 ⟨1, 0⟩ := by
  have hok : (Lexer.ofRules wordRules).tokenize "é b" =
      .ok [⟨1, 0, "é", ⟨0, 2⟩⟩, ⟨1, 0, "b", ⟨3, 4⟩⟩] := by cbv
  have herror : (Lexer.ofRules wordRules).tokenize "b\n!" = .error ⟨⟨2, 3⟩, 2, 0, '!'⟩ := by cbv
  constructor
  · obtain ⟨segs, q, left, h, -, hdone, hstuck⟩ := tokenize_tiles wordRules "é b" (by decide)
    cases left with
    | nil =>
        obtain ⟨htokens, htiling⟩ := hdone rfl
        rw [hok, Except.ok.injEq] at htokens
        rw [← htokens] at htiling
        exact ⟨segs, q, h, htokens.symm, htiling⟩
    | cons c rest =>
        obtain ⟨-, place, -, htokens⟩ := hstuck c rest rfl
        cases hok.symm.trans htokens
  · obtain ⟨segs, q, left, h, -, hdone, hstuck⟩ := tokenize_tiles wordRules "b\n!" (by decide)
    cases left with
    | nil => cases herror.symm.trans (hdone rfl).1
    | cons c rest =>
        obtain ⟨-, ⟨line, column⟩, hplace, htokens⟩ := hstuck c rest rfl
        have herrors := Except.error.inj (herror.symm.trans htokens)
        simp only [LexicalError.mk.injEq, TextRange.mk.injEq] at herrors
        obtain ⟨⟨rfl, -⟩, hline, rfl, rfl⟩ := herrors
        obtain rfl : line = 1 := by omega
        exact ⟨segs, rest, h, hplace⟩

end Caret
