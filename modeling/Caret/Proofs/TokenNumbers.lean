import Caret.Proofs.FirstOccurrence
import Caret.Proofs.Nullability
import Caret.Proofs.Ranges
import Caret.Proofs.SetOperations

/-!
# `Caret.Proofs.TokenNumbers`: one numbering for parser, lexer and names

A token type stands in three places: in the labels of the parser network, in the rules of the lexer
and in the names. All three are made from one numbering, which lists the implicit literals and then
the lexer rules. Entry `i` of `Numbering.allRules` is token type `i + 1` everywhere:
`Numbering.literalName_succ` and `Numbering.symbolicName_succ` say so of the names,
`LexerNetwork.tokenTypes_ofRules` of the lexer, and `Numbering.exists_of_literalType?` and
`Numbering.exists_of_tokenType?` of the labels.

Implicit literals stand in the order of their first uses (`idxOf_eraseDups_lt_iff`). No rule in
front of an implicit literal matches its text, and so the lexer reads the text as this literal
(`Source.longest_implicit`). `numbering_is_consistent` puts this together.
-/

set_option autoImplicit false

namespace Caret

/-! ### Entries of the numbering -/

/-- The entry of a token type is found at its number. -/
theorem Vocabulary.slot_succ (names : Array (Option String)) (i : Nat) :
    slot names (i + 1) = names[i + 1]?.join := by
  have hpos : ¬ (i : Int) + 1 < 0 := by omega
  rw [slot, if_neg hpos]
  rfl

/-- A pattern with the text of a literal is this literal. -/
theorem Pattern.eq_literal_of_literal? {p : Pattern} {text : String}
    (h : p.literal? = some text) : p = .literal text := by
  cases p with
  | literal text' => rw [Option.some.inj h]
  | _ => cases h

namespace Numbering

variable (n : Numbering)

/-- There is one rule for each token type. -/
theorem length_allRules : n.allRules.length = n.size := by
  simp [allRules, size]

/-- The rules of implicit literals come first. -/
theorem getElem?_allRules_of_literals {i : Nat} {text : String} (h : n.literals[i]? = some text) :
    n.allRules[i]? = some (.ofPattern ("T__" ++ toString i) (.literal text)) := by
  have hlt : i < n.literals.length := (List.getElem?_eq_some_iff.mp h).1
  rw [allRules, List.getElem?_append_left (by simpa using hlt), List.getElem?_mapIdx, h]
  rfl

/-- The rules of the lexer come behind them. -/
theorem getElem?_allRules_add (j : Nat) :
    n.allRules[n.literals.length + j]? = n.lexerRules[j]? := by
  rw [allRules, List.getElem?_append_right (by simp)]
  simp

/-- The literal name of a token type is the text of its rule, if that is a literal. -/
theorem literalName_succ (i : Nat) : n.vocabulary.literalName (i + 1) =
    (n.allRules[i]?.bind fun r => r.pattern.literal?).map quoted := by
  have hslot : n.vocabulary.literalName (i + 1) =
      ((n.literals.map fun text => some (quoted text)) ++
        n.lexerRules.map fun (r : LexerRule) => r.pattern.literal?.map quoted)[i]?.join := by
    rw [Vocabulary.literalName, Vocabulary.slot_succ]
    simp [vocabulary]
  rw [hslot]
  -- Implicit literals first, then the rules of the lexer.
  rcases Nat.lt_or_ge i n.literals.length with hi | hi
  · rw [List.getElem?_append_left (by simpa using hi),
      n.getElem?_allRules_of_literals (List.getElem?_eq_getElem hi)]
    simp [hi, LexerRule.ofPattern, Pattern.literal?]
  · obtain ⟨j, rfl⟩ := Nat.exists_eq_add_of_le hi
    rw [List.getElem?_append_right (by simp), getElem?_allRules_add]
    cases hj : n.lexerRules[j]? <;> simp [hj]

/-- The symbolic name of a token type is the name of its lexer rule. Implicit literals have none. -/
theorem symbolicName_succ (i : Nat) : n.vocabulary.symbolicName (i + 1) =
    if i < n.literals.length then none else n.allRules[i]?.map LexerRule.name := by
  have hslot : n.vocabulary.symbolicName (i + 1) = ((n.literals.map fun _ => none) ++
      n.lexerRules.map fun (r : LexerRule) => some r.name)[i]?.join := by
    rw [Vocabulary.symbolicName, Vocabulary.slot_succ]
    simp [vocabulary]
  rw [hslot]
  rcases Nat.lt_or_ge i n.literals.length with hi | hi
  · rw [if_pos hi, List.getElem?_append_left (by simpa using hi)]
    simp [hi]
  · rw [if_neg (by omega)]
    obtain ⟨j, rfl⟩ := Nat.exists_eq_add_of_le hi
    rw [List.getElem?_append_right (by simp), getElem?_allRules_add]
    cases hj : n.lexerRules[j]? <;> simp [hj]

/-- A token type with a symbolic name is that of a lexer rule with this name. -/
theorem exists_of_symbolicName {t : Int} {name : String}
    (h : n.vocabulary.symbolicName t = some name) :
    ∃ (j : Nat) (r : LexerRule), t = ((n.literals.length + j : Nat) : Int) + 1 ∧
      n.lexerRules[j]? = some r ∧ r.name = name := by
  obtain ⟨i, rfl⟩ : ∃ i : Nat, t = (i : Int) + 1 := by
    -- No number below one has an entry.
    rcases Int.lt_or_le 0 t with hpos | hle
    · exact ⟨(t - 1).toNat, by omega⟩
    · rcases Int.lt_or_eq_of_le hle with hneg | rfl
      · rw [Vocabulary.symbolicName, Vocabulary.slot, if_pos hneg] at h
        cases h
      · simp [Vocabulary.symbolicName, Vocabulary.slot, vocabulary] at h
  rw [symbolicName_succ] at h
  split at h
  · cases h
  · rename_i hge
    obtain ⟨j, rfl⟩ := Nat.exists_eq_add_of_le (Nat.le_of_not_lt hge)
    rw [getElem?_allRules_add] at h
    obtain ⟨r, hr, hname⟩ := Option.map_eq_some_iff.mp h
    exact ⟨j, r, rfl, hr, hname⟩

/-- The greatest token type is the number of rules. -/
theorem maxTokenType_vocabulary : n.vocabulary.maxTokenType = n.size := by
  simp [Vocabulary.maxTokenType, vocabulary, size]

variable {n}

/-- The type of a literal is that of a rule which is this literal. -/
theorem exists_of_literalType? {text : String} {t : TokenType} (h : n.literalType? text = some t) :
    ∃ (i : Nat) (r : LexerRule), t = (i : Int) + 1 ∧ n.allRules[i]? = some r ∧
      r.pattern = .literal text := by
  rw [literalType?] at h
  split at h
  · rename_i i hi
    obtain ⟨hlt, htext, -⟩ := List.idxOf?_eq_some_iff.mp hi
    have hget : n.literals[i]? = some text := by rw [List.getElem?_eq_getElem hlt, htext]
    exact ⟨i, _, (Option.some.inj h).symm, n.getElem?_allRules_of_literals hget, rfl⟩
  · cases hj : n.lexerRules.findIdx? fun r => r.pattern.literal? = some text with
    | none => simp [hj] at h
    | some j =>
        obtain ⟨hlt, hliteral, -⟩ := List.findIdx?_eq_some_iff_getElem.mp hj
        refine ⟨n.literals.length + j, n.lexerRules[j], ?_, ?_, ?_⟩
        · simp only [hj] at h
          rw [← Option.some.inj h]
          push_cast
          rfl
        · rw [getElem?_allRules_add, List.getElem?_eq_getElem hlt]
        · exact Pattern.eq_literal_of_literal? (of_decide_eq_true hliteral)

/-- The type of a token is that of the lexer rule with its name. -/
theorem exists_of_tokenType? {name : String} {t : TokenType} (h : n.tokenType? name = some t) :
    ∃ (j : Nat) (r : LexerRule), t = ((n.literals.length + j : Nat) : Int) + 1 ∧
      n.lexerRules[j]? = some r ∧ r.name = name := by
  rw [tokenType?] at h
  cases hj : n.lexerRules.findIdx? fun r => r.name = name with
  | none => simp [hj] at h
  | some j =>
      obtain ⟨hlt, hname, -⟩ := List.findIdx?_eq_some_iff_getElem.mp hj
      refine ⟨j, n.lexerRules[j], ?_, List.getElem?_eq_getElem hlt, of_decide_eq_true hname⟩
      simp only [hj] at h
      rw [← Option.some.inj h]
      push_cast
      rfl

end Numbering

/-- The token types of the rules of a lexer are the numbers from one on. -/
theorem LexerNetwork.tokenTypes_ofRules (rules : List LexerRule) :
    (ofRules rules).network.ruleCount = rules.length ∧
      (ofRules rules).tokenTypes.toList =
        (List.range rules.length).map fun (i : Nat) => (i : Int) + 1 := by
  -- Rules are added to a lexer that may have rules, so that the induction goes through.
  suffices hfold : ∀ (rules : List LexerRule) (l : LexerNetwork) (k : Nat),
      l.network.ruleCount = k →
      l.tokenTypes.toList = (List.range k).map (fun (i : Nat) => (i : Int) + 1) →
        (rules.foldl addRule l).network.ruleCount = k + rules.length ∧
          (rules.foldl addRule l).tokenTypes.toList =
            (List.range (k + rules.length)).map fun (i : Nat) => (i : Int) + 1 by
    have h := hfold rules empty 0 rfl rfl
    rwa [Nat.zero_add] at h
  intro rules
  induction rules with
  | nil =>
      intro l k hcount htypes
      exact ⟨hcount, htypes⟩
  | cons r rules ih =>
      intro l k hcount htypes
      -- A rule is pushed behind those that are there, with one more than their number.
      have hstarts : (l.addRule r).network.ruleCount = k + 1 := by
        rw [Network.ruleCount, (l.addRule_spec r).1, Array.size_push]
        exact congrArg (· + 1) hcount
      have hpush : (l.addRule r).tokenTypes = l.tokenTypes.push ((l.network.ruleCount : Int) + 1) :=
        rfl
      have hnext : (l.addRule r).tokenTypes.toList =
          (List.range (k + 1)).map fun (i : Nat) => (i : Int) + 1 := by
        rw [hpush, Array.toList_push, htypes, hcount, List.range_succ, List.map_append]
        rfl
      have hlength : k + (r :: rules).length = k + 1 + rules.length := by
        rw [List.length_cons]
        omega
      rw [List.foldl_cons, hlength]
      exact ih _ _ hstarts hnext

/-! ### Symbols of the parser rules -/

/-- The symbols that a terminal is written with. -/
def Terminal.symbols : Terminal → List Symbol
  | .one a => [a]
  | .oneOf symbols => symbols
  | .noneOf symbols => symbols
  | .any => []

/-- The label has the types of the symbols in place of the symbols. -/
def Terminal.Labelled (typeOf : Symbol → TokenType) : Terminal → Label → Prop
  | .one a, l => l = .symbol (typeOf a)
  | .oneOf symbols, l => ∃ set : IntervalSet, l = .oneOf set ∧
      set.Represents {t | ∃ a ∈ symbols, typeOf a = t}
  | .noneOf symbols, l => ∃ set : IntervalSet, l = .noneOf set ∧
      set.Represents {t | ∃ a ∈ symbols, typeOf a = t}
  | .any, l => l = .any

/-- The token type of a symbol that the grammar defines. -/
def Numbering.typeOf (n : Numbering) (a : Symbol) : TokenType :=
  (n.typeOf? a).getD Caret.endOfInput

namespace Source

/-- The symbol stands in a parser rule, by itself or in a set. -/
def Uses (s : Source) (a : Symbol) : Prop :=
  ∃ rule ∈ s.rules, ∃ e ∈ rule.body.exprs, ∃ t, .terminal t ∈ e.nodes ∧ a ∈ t.symbols

/-- The text is a literal of the parser rules, and no lexer rule is this literal. -/
def IsImplicit (s : Source) (text : String) : Prop :=
  s.Uses (.literal text) ∧ ∀ r ∈ s.lexerRules, r.pattern ≠ .literal text

/-- A symbol that is resolved has the type that it is resolved to. -/
theorem typeOf_of_tokenTypeOf {n : Numbering} {rule : String} {a : Symbol} {t : TokenType}
    (h : tokenTypeOf n rule a = .ok t) : n.typeOf a = t := by
  rw [Numbering.typeOf, typeOf?_of_tokenTypeOf h]
  rfl

/-- The same for the symbols of a list. -/
theorem mapM_tokenTypeOf {n : Numbering} {rule : String} {symbols : List Symbol}
    {ts : List TokenType} (h : symbols.mapM (tokenTypeOf n rule) = .ok ts) :
    ts = symbols.map n.typeOf ∧ ∀ a ∈ symbols, tokenTypeOf n rule a = .ok (n.typeOf a) := by
  induction symbols generalizing ts with
  | nil =>
      rw [List.mapM_nil] at h
      rw [← Except.ok.inj h]
      simp
  | cons a symbols ih =>
      rw [List.mapM_cons] at h
      obtain ⟨t, ht, h⟩ := exists_of_bind_ok h
      obtain ⟨rest, hrest, h⟩ := exists_of_bind_ok h
      obtain ⟨hmap, hall⟩ := ih hrest
      obtain rfl := typeOf_of_tokenTypeOf ht
      rw [← Except.ok.inj h, hmap]
      exact ⟨rfl, List.forall_mem_cons.mpr ⟨ht, hall⟩⟩

/-- The label of a terminal is made of the types of its symbols, and each of them has one. -/
theorem labelled_of_labelOf {n : Numbering} {rule : String} {t : Terminal} {l : Label}
    (h : labelOf n rule t = .ok l) : t.Labelled n.typeOf l ∧
      ∀ a ∈ t.symbols, tokenTypeOf n rule a = .ok (n.typeOf a) := by
  -- A set of symbols becomes the set of their types.
  have hset : ∀ {symbols : List Symbol} {ts : List TokenType},
      symbols.mapM (tokenTypeOf n rule) = .ok ts →
        (IntervalSet.ofList ts).Represents {t | ∃ a ∈ symbols, n.typeOf a = t} := by
    intro symbols ts hts
    obtain ⟨hcanonical, hmem⟩ := IntervalSet.ofList_spec ts
    refine hcanonical.represents fun t => ?_
    rw [hmem, (mapM_tokenTypeOf hts).1, List.mem_map]
    rfl
  cases t with
  | any => exact ⟨(Except.ok.inj h).symm, by simp [Terminal.symbols]⟩
  | one a =>
      obtain ⟨t, ht, rfl⟩ := exists_of_map_ok h
      obtain rfl := typeOf_of_tokenTypeOf ht
      exact ⟨rfl, by simpa [Terminal.symbols] using ht⟩
  | oneOf symbols =>
      obtain ⟨ts, hts, rfl⟩ := exists_of_map_ok h
      exact ⟨⟨_, rfl, hset hts⟩, (mapM_tokenTypeOf hts).2⟩
  | noneOf symbols =>
      obtain ⟨ts, hts, rfl⟩ := exists_of_map_ok h
      exact ⟨⟨_, rfl, hset hts⟩, (mapM_tokenTypeOf hts).2⟩

/-- The literals of a grammar are those that its parser rules use. -/
theorem mem_literals_iff (s : Source) (text : String) :
    text ∈ s.literals ↔ s.Uses (.literal text) := by
  -- In a terminal, by itself or in a set.
  have htexts : ∀ t : Terminal, text ∈ t.literals ↔ .literal text ∈ t.symbols := by
    intro t
    have hmem : ∀ symbols : List Symbol,
        text ∈ Terminal.literals.texts symbols ↔ .literal text ∈ symbols := by
      intro symbols
      rw [Terminal.literals.texts, List.mem_filterMap]
      constructor
      · rintro ⟨a, ha, htext⟩
        cases a with
        | literal text' => exact Option.some.inj htext ▸ ha
        | token name => cases htext
        | endOfInput => cases htext
      · intro hmem
        exact ⟨_, hmem, rfl⟩
    cases t with
    | any => simp [Terminal.literals, Terminal.symbols]
    | _ => exact hmem _
  simp only [literals, List.mem_flatMap, Uses]
  constructor
  · rintro ⟨rule, hrule, e, he, x, hx, htext⟩
    split at htext
    · rename_i t
      exact ⟨rule, hrule, e, he, t, hx, (htexts t).mp htext⟩
    · cases htext
  · rintro ⟨rule, hrule, e, he, t, ht, htext⟩
    exact ⟨rule, hrule, e, he, .terminal t, ht, (htexts t).mpr htext⟩

/-- The implicit literals are those that the numbering lists. -/
theorem mem_numbering_literals_iff (s : Source) (text : String) :
    text ∈ s.numbering.literals ↔ s.IsImplicit text := by
  have hpattern : ∀ r : LexerRule, r.pattern.literal? = some text ↔ r.pattern = .literal text := by
    intro r
    constructor
    · exact Pattern.eq_literal_of_literal?
    · intro heq
      rw [heq]
      rfl
  rw [numbering, List.mem_eraseDups, List.mem_filter, mem_literals_iff, IsImplicit]
  simp [hpattern]

/-- Implicit literals are listed in the order of their first uses. -/
theorem idxOf_numbering_literals_lt_iff {s : Source} {u v : String} (hu : s.IsImplicit u)
    (hv : s.IsImplicit v) : s.numbering.literals.idxOf u < s.numbering.literals.idxOf v ↔
      s.literals.idxOf u < s.literals.idxOf v := by
  -- Filtering and erasing repetitions keep the order of those that stay.
  have hkept : ∀ text, s.IsImplicit text →
      (!s.lexerRules.any fun r => r.pattern.literal? = some text) = true := by
    intro text htext
    have hmem := (s.mem_numbering_literals_iff text).mpr htext
    rw [numbering, List.mem_eraseDups, List.mem_filter] at hmem
    exact hmem.2
  rw [numbering, idxOf_eraseDups_lt_iff]
  exact idxOf_filter_lt_iff _ _ (hkept u hu) (hkept v hv)

variable {s : Source} {g : Grammar}

/-- Every symbol in the parser rules of an accepted grammar has a type. -/
theorem exists_tokenTypeOf (h : s.build = .ok g) {a : Symbol} (ha : s.Uses a) :
    ∃ rule, tokenTypeOf s.numbering rule a = .ok (s.numbering.typeOf a) := by
  obtain ⟨written, hwritten, e, he, t, ht, hsymbol⟩ := ha
  obtain ⟨hresolve, -, -⟩ := build_spec h
  obtain ⟨r, hr⟩ := List.mem_iff_getElem?.mp hwritten
  obtain ⟨rule', -, hresolves⟩ := exists_resolved hresolve hr
  obtain ⟨e', -, hexpr⟩ := hresolves.symm.exists_expr e he
  obtain ⟨x', -, hterminal⟩ := hexpr.exists_node _ ht
  -- The terminal that the symbol stands in was resolved, so all of its symbols were.
  cases hterminal with
  | terminal hlabel =>
      obtain ⟨rule, hl⟩ := hlabel
      exact ⟨rule, (labelled_of_labelOf hl).2 a hsymbol⟩

/-- So the numbering has a type for it. -/
theorem typeOf?_of_uses (h : s.build = .ok g) {a : Symbol} (ha : s.Uses a) :
    s.numbering.typeOf? a = some (s.numbering.typeOf a) := by
  obtain ⟨rule, hrule⟩ := exists_tokenTypeOf h ha
  exact typeOf?_of_tokenTypeOf hrule

/-- A literal in the rules of an accepted grammar is not the empty text. -/
theorem ne_empty_of_uses (h : s.build = .ok g) {text : String} (ha : s.Uses (.literal text)) :
    text.toList ≠ [] := by
  obtain ⟨rule, hrule⟩ := exists_tokenTypeOf h ha
  intro hnil
  have hempty : text.isEmpty = true := by simpa using hnil
  simp [tokenTypeOf, hempty] at hrule

/-! ### Implicit literals -/

/-- No implicit literal is listed twice. -/
theorem nodup_numbering_literals (s : Source) : s.numbering.literals.Nodup := nodup_eraseDups _

/-- An implicit literal is numbered by its place in the list of these literals. -/
theorem typeOf_implicit {text : String} (ht : s.IsImplicit text) :
    s.numbering.literals[s.numbering.literals.idxOf text]? = some text ∧
      s.numbering.typeOf (.literal text) = (s.numbering.literals.idxOf text : Int) + 1 := by
  have hmem := (s.mem_numbering_literals_iff text).mpr ht
  have hlt := List.idxOf_lt_length_of_mem hmem
  have hfound : s.numbering.literals.idxOf? text = some (s.numbering.literals.idxOf text) := by
    refine List.idxOf?_eq_some_iff.mpr ⟨hlt, List.getElem_idxOf hlt, fun j hj heq => ?_⟩
    have hidx := s.nodup_numbering_literals.idxOf_getElem j (Nat.lt_trans hj hlt)
    rw [heq] at hidx
    exact absurd hidx (Nat.ne_of_gt hj)
  refine ⟨by rw [List.getElem?_eq_getElem hlt, List.getElem_idxOf hlt], ?_⟩
  simp [Numbering.typeOf, Numbering.typeOf?, Numbering.literalType?, hfound]

/-- The text of an implicit literal is the longest match where it stands alone, and the rule of the
literal is the first that matches it. -/
theorem longest_implicit (h : s.build = .ok g) {text : String} (ht : s.IsImplicit text) :
    Longest s.numbering.allRules text.toList text.toList.length
      (some (s.numbering.literals.idxOf text, text.toList.length)) := by
  have hget := (typeOf_implicit ht).1
  refine ⟨List.length_pos_iff.mpr (ne_empty_of_uses h ht.1), le_rfl, ⟨?_, ?_⟩, ?_⟩
  · refine ⟨_, s.numbering.getElem?_allRules_of_literals hget, ?_⟩
    rw [List.take_length]
    rfl
  · -- A rule further in front is another implicit literal.
    intro j hj
    rintro ⟨r, hr, hmatch⟩
    have hlt := List.idxOf_lt_length_of_mem ((s.mem_numbering_literals_iff text).mpr ht)
    have hjlt : j < s.numbering.literals.length := Nat.lt_trans hj hlt
    have hother := List.getElem?_eq_getElem hjlt
    rw [s.numbering.getElem?_allRules_of_literals hother] at hr
    cases hr
    rw [List.take_length] at hmatch
    have heq : text = s.numbering.literals[j] := String.toList_inj.mp hmatch
    have hidx := s.nodup_numbering_literals.idxOf_getElem j hjlt
    rw [← heq] at hidx
    exact absurd hidx (Nat.ne_of_gt hj)
  · intro k hlt hle
    omega

end Source

/-- A text that a rule without commands matches as a whole is one token. -/
theorem Lexer.tokensFrom_whole {rules : List LexerRule} {cs : List Char} {i : RuleIndex}
    {r : LexerRule} (hr : rules[i]? = some r) (hcommands : r.commands = [])
    (hlongest : Longest rules cs cs.length (some (i, cs.length))) :
    (ofRules rules).tokensFrom 0 cs = .ok
      [⟨(i : Int) + 1, defaultChannel, String.ofList cs, .ofIndices 0 (byteLength cs)⟩] := by
  have hmatch := (longestMatch_longest rules cs).unique hlongest
  have hout : (ofRules rules).outputs[i]? = some ⟨(i : Int) + 1, defaultChannel, false⟩ := by
    rw [getElem?_outputs_ofRules, hr, Option.map_some, hcommands]
    rfl
  have hpos := hlongest.1
  cases cs with
  | nil => cases hpos
  | cons c rest =>
      rw [List.length_cons] at hmatch
      rw [tokensFrom, hmatch]
      simp [hout, tokensFrom]

/-- Quotes are taken off again. -/
theorem unquoted_quoted (text : String) : unquoted (quoted text) = text := by
  have hlist : (quoted text).toList = '\'' :: (text.toList ++ ['\'']) := by simp [quoted]
  rw [unquoted, hlist]
  simp

/-! ### Consistency -/

/-- Parser network, lexer and names agree on the numbers of the tokens. `typeOf` gives the number of
a symbol, and `implicit` are the lexer rules that are made for literals. -/
structure NumbersTokens (s : Source) (g : Grammar) (typeOf : Symbol → TokenType)
    (implicit : List LexerRule) : Prop where
  /-- The lexer has the rules that were made, and then those that were written. -/
  lexer_eq : g.lexer = .ofRules (implicit ++ s.lexerRules)
  network_max : g.recognizer.network.maxTokenType = g.recognizer.vocabulary.maxTokenType
  lexer_count : (g.lexer.network.network.ruleCount : Int) = g.recognizer.vocabulary.maxTokenType
  lexer_types : g.lexer.network.tokenTypes.toList =
    (List.range g.lexer.network.network.ruleCount).map fun (i : Nat) => (i : Int) + 1
  /-- What a parser rule compiles to has the numbers of its symbols in the places of these. -/
  compiled : ∀ (r : RuleIndex) (rule : Rule Terminal String), s.rules[r]? = some rule →
    ∃ body, Body.Resolves (Terminal.Labelled typeOf) s.IsPosition rule.body body ∧
      g.recognizer.network.RuleWired r body
  endOfInput : typeOf .endOfInput = Caret.endOfInput
  token : ∀ name, s.Uses (.token name) →
    (∀ t, g.recognizer.vocabulary.symbolicName t = some name ↔ t = typeOf (.token name)) ∧
      ∃ i : Nat, typeOf (.token name) = (i : Int) + 1 ∧ g.lexer.names[i]? = some name
  literal : ∀ text, s.Uses (.literal text) →
    g.recognizer.vocabulary.literalName (typeOf (.literal text)) = some (quoted text) ∧
      ∃ (i : Nat) (r : LexerRule), typeOf (.literal text) = (i : Int) + 1 ∧
        (implicit ++ s.lexerRules)[i]? = some r ∧ r.pattern = .literal text
  distinct : ∀ u v, s.Uses (.literal u) → s.Uses (.literal v) →
    typeOf (.literal u) = typeOf (.literal v) → u = v
  /-- The rules that were made are those of the implicit literals. -/
  first : ∀ i : Nat, i < implicit.length ↔
    ∃ text, s.IsImplicit text ∧ typeOf (.literal text) = (i : Int) + 1
  first_use : ∀ u v, s.IsImplicit u → s.IsImplicit v →
    (typeOf (.literal u) < typeOf (.literal v) ↔ s.literals.idxOf u < s.literals.idxOf v)
  tokenize : ∀ text, s.IsImplicit text → ∃ range,
    g.lexer.tokenize text = .ok [⟨typeOf (.literal text), defaultChannel, text, range⟩] ∧
      range = .ofIndices 0 (byteLength text.toList) ∧
        (byteLength text.toList ≤ nat32Max → range = ⟨0, byteLength text.toList⟩)
  display : ∀ text, s.IsImplicit text →
    g.recognizer.vocabulary.displayName (typeOf (.literal text)) = text

/-- The names of an accepted grammar are those of its numbering. -/
theorem Source.vocabulary_eq {s : Source} {g : Grammar} (h : s.build = .ok g) :
    g.recognizer.vocabulary = s.numbering.vocabulary := by
  rw [build] at h
  obtain ⟨rules, -, h⟩ := exists_of_bind_ok h
  cases h
  rfl

namespace Source

variable {s : Source} {g : Grammar}

/-- Only one token type has the name of a token of the parser rules. -/
theorem symbolicName_eq_some_iff (h : s.build = .ok g) {name : String} (ha : s.Uses (.token name))
    (t : TokenType) :
    s.numbering.vocabulary.symbolicName t = some name ↔ t = s.numbering.typeOf (.token name) := by
  have hnodup := (checkNames_eq_ok_iff.mp (checkNames_of_build h)).2.2
  obtain ⟨j, r, htype, hr, hname⟩ := Numbering.exists_of_tokenType? (typeOf?_of_uses h ha)
  rw [htype]
  constructor
  · intro ht
    obtain ⟨j', r', rfl, hr', hname'⟩ := s.numbering.exists_of_symbolicName ht
    have hget : (s.lexerRules.map LexerRule.name)[j']? = (s.lexerRules.map LexerRule.name)[j]? := by
      rw [List.getElem?_map, List.getElem?_map]
      show (s.numbering.lexerRules[j']?).map _ = (s.numbering.lexerRules[j]?).map _
      rw [hr, hr', Option.map_some, Option.map_some, hname, hname']
    have hlt : j' < (s.lexerRules.map LexerRule.name).length := by
      rw [List.length_map]
      exact (List.getElem?_eq_some_iff.mp hr').1
    -- Names of lexer rules are not used twice.
    have hsame : j' = j := (List.getElem?_inj hlt hnodup).mp hget
    rw [hsame]
  · rintro rfl
    rw [Numbering.symbolicName_succ, if_neg (by omega), Numbering.getElem?_allRules_add]
    exact Option.map_eq_some_iff.mpr ⟨r, hr, hname⟩

/-- The name of a literal is its text in quotes. -/
theorem literalName_typeOf (h : s.build = .ok g) {text : String} (ha : s.Uses (.literal text)) :
    s.numbering.vocabulary.literalName (s.numbering.typeOf (.literal text)) =
      some (quoted text) := by
  obtain ⟨i, r, htype, hr, hpattern⟩ := Numbering.exists_of_literalType? (typeOf?_of_uses h ha)
  rw [htype, Numbering.literalName_succ, hr]
  simp [hpattern, Pattern.literal?]

/-- A parser rule compiles to its body with the types of the symbols in their places. -/
theorem compiled_of_build (h : s.build = .ok g) (hsize : s.numbering.size < 2 ^ 31 - 2)
    {r : RuleIndex} {rule : Rule Terminal String} (hrule : s.rules[r]? = some rule) :
    ∃ body, Body.Resolves (Terminal.Labelled s.numbering.typeOf) s.IsPosition rule.body body ∧
      g.recognizer.network.RuleWired r body := by
  obtain ⟨hresolve, -, -⟩ := build_spec h
  obtain ⟨rule', hr, hresolves⟩ := exists_resolved hresolve hrule
  refine ⟨rule'.body, hresolves.mono ?_ (fun _ _ hname => hname),
    (realizes_of_build h hsize).wired r _ hr⟩
  rintro t l ⟨name, hl⟩
  exact (labelled_of_labelOf hl).1

/-- The numbers up to that of implicit literals are the types of these. -/
theorem lt_length_literals_iff (s : Source) (i : Nat) : i < s.numbering.literals.length ↔
    ∃ text, s.IsImplicit text ∧ s.numbering.typeOf (.literal text) = (i : Int) + 1 := by
  constructor
  · intro hi
    have himplicit := (s.mem_numbering_literals_iff _).mp (List.getElem_mem hi)
    refine ⟨s.numbering.literals[i], himplicit, ?_⟩
    rw [(typeOf_implicit himplicit).2, s.nodup_numbering_literals.idxOf_getElem i hi]
  · rintro ⟨text, himplicit, htype⟩
    have hlt := List.idxOf_lt_length_of_mem ((s.mem_numbering_literals_iff text).mpr himplicit)
    have hidx : (s.numbering.literals.idxOf text : Int) + 1 = (i : Int) + 1 :=
      (typeOf_implicit himplicit).2.symm.trans htype
    omega

/-- Implicit literals are numbered in the order of their first uses. -/
theorem typeOf_lt_iff {u v : String} (hu : s.IsImplicit u) (hv : s.IsImplicit v) :
    s.numbering.typeOf (.literal u) < s.numbering.typeOf (.literal v) ↔
      s.literals.idxOf u < s.literals.idxOf v := by
  rw [← idxOf_numbering_literals_lt_iff hu hv, (typeOf_implicit hu).2, (typeOf_implicit hv).2]
  show (_ : Int) + 1 < (_ : Int) + 1 ↔ _
  omega

/-- The lexer reads the text of an implicit literal as this literal. -/
theorem tokenize_implicit (h : s.build = .ok g) {text : String} (ht : s.IsImplicit text) :
    g.lexer.tokenize text = .ok [⟨s.numbering.typeOf (.literal text), defaultChannel, text,
      .ofIndices 0 (byteLength text.toList)⟩] := by
  obtain ⟨hget, htype⟩ := typeOf_implicit ht
  have hrule := s.numbering.getElem?_allRules_of_literals hget
  rw [lexer_eq h, Lexer.tokenize, Lexer.tokensFrom_whole hrule rfl (longest_implicit h ht), htype,
    String.ofList_toList]

/-- An implicit literal has no name, so its text is shown. -/
theorem displayName_implicit (h : s.build = .ok g) {text : String} (ht : s.IsImplicit text) :
    s.numbering.vocabulary.displayName (s.numbering.typeOf (.literal text)) = text := by
  have hlt := List.idxOf_lt_length_of_mem ((s.mem_numbering_literals_iff text).mpr ht)
  have hname : s.numbering.vocabulary.symbolicName (s.numbering.typeOf (.literal text)) = none := by
    rw [(typeOf_implicit ht).2, Numbering.symbolicName_succ, if_pos hlt]
  rw [Vocabulary.displayName, hname, literalName_typeOf h ht.1]
  exact unquoted_quoted text

end Source

/-- The tokens of an accepted grammar have the same numbers in the parser network, in the lexer and
among the names. -/
theorem numbering_is_consistent {s : Source} {g : Grammar} (h : s.build = .ok g)
    (hsize : s.numbering.size < 2 ^ 31 - 2) :
    ∃ typeOf implicit, NumbersTokens s g typeOf implicit := by
  have hlexer : g.lexer = .ofRules s.numbering.allRules := Source.lexer_eq h
  have hvocabulary := Source.vocabulary_eq h
  obtain ⟨hcount, htypes⟩ := LexerNetwork.tokenTypes_ofRules s.numbering.allRules
  rw [s.numbering.length_allRules] at hcount htypes
  refine ⟨s.numbering.typeOf, s.numbering.literals.mapIdx fun i text =>
    .ofPattern ("T__" ++ toString i) (.literal text), ?_⟩
  exact
    { lexer_eq := hlexer
      network_max := by
        rw [hvocabulary, s.numbering.maxTokenType_vocabulary]
        exact congrArg Universe.high (Source.realizes_of_build h hsize).alphabet_eq
      lexer_count := by
        rw [hvocabulary, s.numbering.maxTokenType_vocabulary, hlexer]
        exact congrArg Nat.cast hcount
      lexer_types := by
        rw [hlexer]
        show (LexerNetwork.ofRules s.numbering.allRules).tokenTypes.toList =
          (List.range (LexerNetwork.ofRules s.numbering.allRules).network.ruleCount).map _
        rw [hcount, htypes]
      compiled := fun r rule hrule => Source.compiled_of_build h hsize hrule
      endOfInput := rfl
      token := by
        intro name ha
        rw [hvocabulary, hlexer]
        refine ⟨Source.symbolicName_eq_some_iff h ha, ?_⟩
        obtain ⟨j, r, htype, hr, hname⟩ :=
          Numbering.exists_of_tokenType? (Source.typeOf?_of_uses h ha)
        refine ⟨s.numbering.literals.length + j, htype, ?_⟩
        simp [Lexer.ofRules, Numbering.getElem?_allRules_add, hr, hname]
      literal := by
        intro text ha
        rw [hvocabulary]
        exact ⟨Source.literalName_typeOf h ha,
          Numbering.exists_of_literalType? (Source.typeOf?_of_uses h ha)⟩
      distinct := by
        -- The quotes around both texts are the same entry of the names.
        intro u v hu hv heq
        have hquoted : some (quoted u) = some (quoted v) := by
          rw [← Source.literalName_typeOf h hu, ← Source.literalName_typeOf h hv, heq]
        rw [← unquoted_quoted u, Option.some.inj hquoted, unquoted_quoted]
      first := by
        intro i
        rw [List.length_mapIdx]
        exact s.lt_length_literals_iff i
      first_use := fun u v hu hv => Source.typeOf_lt_iff hu hv
      tokenize := by
        intro text ht
        refine ⟨_, Source.tokenize_implicit h ht, rfl, fun hle => ?_⟩
        show (⟨textOffset 0, textOffset _⟩ : TextRange) = _
        rw [textOffset_eq hle, textOffset_eq (Nat.zero_le _)]
      display := by
        intro text ht
        rw [hvocabulary]
        exact Source.displayName_implicit h ht }

/-- Settings and sums of names. A sign is an implicit literal or the first of the two lexer rules
for it, and `let` is an implicit literal although it could be a name. -/
def letGrammar : Source where
  rules := [
    ⟨"line", .plain (.seq [.terminal (.one (.literal "let")), .terminal (.one (.token "NAME")),
      .terminal (.oneOf [.literal "=", .literal "+", .endOfInput]), .rule "sum"])⟩,
    ⟨"sum", .precedence [.terminal (.one (.token "NAME")), .terminal (.noneOf [.literal "let"])]
      [.terminal (.one (.literal "+"))]⟩]
  lexerRules := [
    .ofPattern "NAME" (.repeated (.oneOf .letters) 1 none),
    .ofPattern "PLUS" (.literal "+"),
    (LexerRule.ofPattern "SIGN" (.literal "+")).hidden]

/-- The grammar is accepted. -/
theorem exists_build_letGrammar : ∃ g, letGrammar.build = .ok g := by
  have hok : letGrammar.build.isOk = true := by cbv
  cases hbuild : letGrammar.build with
  | ok g => exact ⟨g, rfl⟩
  | error e =>
      rw [hbuild] at hok
      cases hok

/-- Its tokens can be numbered. -/
theorem size_numbering_letGrammar : letGrammar.numbering.size < 2 ^ 31 - 2 := by decide

/-- The grammar has an implicit literal, a literal with a lexer rule, and a token. -/
theorem let_numbering_is_consistent : ∃ g, letGrammar.build = .ok g ∧
    letGrammar.numbering.size < 2 ^ 31 - 2 ∧ letGrammar.IsImplicit "let" ∧
    letGrammar.Uses (.literal "+") ∧ letGrammar.Uses (.token "NAME") ∧
    ∃ typeOf implicit, NumbersTokens letGrammar g typeOf implicit := by
  obtain ⟨g, hg⟩ := exists_build_letGrammar
  have hsize := size_numbering_letGrammar
  have himplicit : letGrammar.IsImplicit "let" :=
    (letGrammar.mem_numbering_literals_iff "let").mp (by decide)
  have hplus : letGrammar.Uses (.literal "+") :=
    (letGrammar.mem_literals_iff "+").mp (by decide)
  have hname : letGrammar.Uses (.token "NAME") :=
    ⟨_, List.mem_cons_self, _, List.mem_cons_self, .one (.token "NAME"), by
      simp [Expr.nodes, Expr.nodesOfList], List.mem_cons_self⟩
  exact ⟨g, hg, hsize, himplicit, hplus, hname, numbering_is_consistent hg hsize⟩

end Caret
