import Caret.Proofs.LexerRules
import Caret.Proofs.TokenNumbers

/-!
# `Caret.Proofs.Channels`: on which channel the tokens of a type are

`LexerNetwork.isDefaultChannel` judges a token type by its number: it looks for commands in the part
of the network that belongs to the rule with this number. The type and the channel of a token come
from elsewhere, from the commands of the rule that matched (`LexerOutput.ofCommands`).

The two agree for the rule that matched. A rule that has matched a text can be left behind its
commands, so the search finds all of them and nothing else (`isDefaultChannel_own_iff`), and without
a command that leaves the default channel the token is there (`channel_ofCommands`).

But a command can give a token the type of another rule, or one that no rule has. Such a token is
judged by a rule that did not match it, and may be on any channel (`retyped_token_is_misjudged`).
`default_channel_unless_retyped` states that this is the only way to be misjudged.
-/

set_option autoImplicit false

namespace Caret

/-! ### Commands -/

namespace LexerOutput

/-- Without a command that leaves it, a token is on the default channel. -/
theorem channel_ofCommands (t : TokenType) {cs : List Command}
    (h : ∀ c ∈ cs, c.leavesDefaultChannel = false) :
    (ofCommands t cs).channel = defaultChannel := by
  suffices hfold : ∀ out : LexerOutput, out.channel = defaultChannel →
      (cs.foldl apply out).channel = defaultChannel from hfold _ rfl
  induction cs with
  | nil => exact fun _ hout => hout
  | cons c cs ih =>
      intro out hout
      refine ih (fun c' hc' => h c' (List.mem_cons_of_mem c hc')) _ ?_
      have hc := h c List.mem_cons_self
      -- Only a channel command touches the channel, and this one names the default channel.
      cases c with
      | channel number =>
          show number = defaultChannel
          simpa [Command.leavesDefaultChannel] using hc
      | _ => exact hout

/-- A token has the type it started with, or one that a command gave it. -/
theorem tokenType_ofCommands (t : TokenType) (cs : List Command) :
    (ofCommands t cs).tokenType = t ∨ .type (ofCommands t cs).tokenType ∈ cs := by
  suffices hfold : ∀ out : LexerOutput, (cs.foldl apply out).tokenType = out.tokenType ∨
      .type (cs.foldl apply out).tokenType ∈ cs from hfold _
  induction cs with
  | nil => exact fun _ => Or.inl rfl
  | cons c cs ih =>
      intro out
      rw [List.foldl_cons]
      rcases ih (out.apply c) with heq | hmem
      · cases c with
        | type t' =>
            right
            rw [heq]
            exact List.mem_cons_self
        | _ => exact Or.inl heq
      · exact Or.inr (List.mem_cons_of_mem c hmem)

end LexerOutput

/-! ### The judgement on a type -/

namespace LexerNetwork

variable {rules : List LexerRule} {i : RuleIndex} {r : LexerRule}

/-- A rule is the first one with its own number. -/
theorem ruleFor?_own (hr : rules[i]? = some r) :
    (ofRules rules).ruleFor? ((i : Int) + 1) = some i := by
  have hlt : i < rules.length := (List.getElem?_eq_some_iff.mp hr).1
  have htypes : (ofRules rules).tokenTypes =
      ((List.range rules.length).map fun (j : Nat) => (j : Int) + 1).toArray := by
    rw [← (tokenTypes_ofRules rules).2]
  rw [ruleFor?, htypes, List.findIdx?_toArray, List.findIdx?_eq_some_iff_getElem]
  -- Types are numbered one by one, so no rule in front has the same number.
  refine ⟨by simpa using hlt, by simp, fun j hj => ?_⟩
  have hne : (j : Int) ≠ i := by omega
  simpa using hne

/-- A rule that can match is judged by its own commands. -/
theorem isDefaultChannel_own_iff (hr : rules[i]? = some r) {w : List Char}
    (hw : w ∈ r.pattern.language) : (ofRules rules).isDefaultChannel ((i : Int) + 1) = true ↔
      ∀ c ∈ r.commands, c.leavesDefaultChannel = false := by
  have himplements := ofRules_implements rules
  obtain ⟨start, -, hstart, -⟩ := himplements.rule i r hr
  have hmem := himplements.mem_commandsFrom_iff hr hstart hw
  -- The numbers that the search finds, looked up in the table, are the commands of the rule.
  have hlookup : ∀ j < r.commands.length,
      (ofRules rules).commands[commandBase rules i + j]? = r.commands[j]? := by
    intro j hj
    rw [← Array.getElem?_toList, himplements.commands_eq, getElem?_flatMap_commands hr hj]
  have hfound : ∀ c, c ∈ ((ofRules rules).network.commandsFrom start).filterMap
      ((ofRules rules).commands[·]?) ↔ c ∈ r.commands := by
    intro c
    rw [List.mem_filterMap]
    constructor
    · rintro ⟨k, hk, hc⟩
      obtain ⟨j, hj, rfl⟩ := (hmem k).mp hk
      exact List.mem_of_getElem? ((hlookup j hj).symm.trans hc)
    · intro hc
      obtain ⟨j, hj, hget⟩ := List.mem_iff_getElem.mp hc
      exact ⟨_, (hmem _).mpr ⟨j, hj, rfl⟩,
        (hlookup j hj).trans (List.getElem?_eq_some_iff.mpr ⟨hj, hget⟩)⟩
  rw [isDefaultChannel, ruleFor?_own hr, Option.bind_some, hstart]
  simp only [Bool.not_eq_true', List.any_eq_false, hfound, Bool.not_eq_true]

end LexerNetwork

/-! ### Tokens -/

/-- A token comes from the first rule that matches its text, with the type and the channel that the
commands of the rule give it. -/
theorem Lexer.exists_rule_of_mem_tokensFrom {rules : List LexerRule} {p : Nat} {cs : List Char}
    {tokens : List Token} (h : (ofRules rules).tokensFrom p cs = .ok tokens) {k : Token}
    (hk : k ∈ tokens) :
    ∃ i r, rules[i]? = some r ∧ FirstMatch rules i k.text.toList ∧
      LexerOutput.ofCommands ((i : Int) + 1) r.commands = ⟨k.tokenType, k.channel, false⟩ := by
  fun_induction Lexer.tokensFrom (ofRules rules) p cs generalizing tokens with
  | case1 =>
      cases h
      cases hk
  | case2 p c rest i length hmatch out hout text next kept htail hskip =>
      rename_i ih
      cases h
      exact ih htail hk
  | case3 p c rest i length hmatch out hout text next kept htail hskip =>
      rename_i ih
      cases h
      -- The token is the one that was just cut off, or one of the rest of the text.
      rcases List.mem_cons.mp hk with rfl | hk
      · have hlongest := longestMatch_longest rules (c :: rest)
        rw [hmatch] at hlongest
        obtain ⟨-, -, hfirst, -⟩ := hlongest
        rw [getElem?_outputs_ofRules] at hout
        obtain ⟨r, hr, rfl⟩ := Option.map_eq_some_iff.mp hout
        refine ⟨i, r, hr, ?_, ?_⟩
        · rw [String.toList_ofList]
          exact hfirst
        · rw [Bool.not_eq_true] at hskip
          rw [← hskip]
      · exact ih htail hk
  | case4 => cases h
  | case5 => cases h
  | case6 => cases h

/-- What is known about the channel of a token that rule `i` has matched. -/
structure Token.Judged (rules : List LexerRule) (k : Token) (i : RuleIndex) (r : LexerRule) :
    Prop where
  /-- It is the first rule of the lexer that matches the text. -/
  rule_eq : rules[i]? = some r
  first : FirstMatch rules i k.text.toList
  /-- Type and channel are what the commands of the rule make of them. -/
  output_eq : LexerOutput.ofCommands ((i : Int) + 1) r.commands = ⟨k.tokenType, k.channel, false⟩
  /-- The type of the rule is judged by the same commands. -/
  own_iff : (Lexer.ofRules rules).network.isDefaultChannel ((i : Int) + 1) = true ↔
    ∀ c ∈ r.commands, c.leavesDefaultChannel = false
  /-- If the type of the token is judged to be on the default channel, then the token is there, or
  a command has given it the type of something else. -/
  safe : (Lexer.ofRules rules).network.isDefaultChannel k.tokenType = true →
    k.channel = defaultChannel ∨ k.tokenType ≠ (i : Int) + 1 ∧ .type k.tokenType ∈ r.commands

/-- A token whose type is judged to be on the default channel is there, unless the rule that matched
it has given it another type than its own. -/
theorem default_channel_unless_retyped (rules : List LexerRule) (text : String)
    {tokens : List Token} (h : (Lexer.ofRules rules).tokenize text = .ok tokens) {k : Token}
    (hk : k ∈ tokens) : ∃ i r, k.Judged rules i r := by
  have htokens : (Lexer.ofRules rules).tokensFrom 0 text.toList = .ok tokens := by
    rw [Lexer.tokenize] at h
    split at h
    · rename_i tokens' htokens'
      cases h
      exact htokens'
    · cases h
  obtain ⟨i, r, hr, hfirst, hout⟩ := Lexer.exists_rule_of_mem_tokensFrom htokens hk
  obtain ⟨r', hr', hw⟩ := hfirst.1
  cases hr.symm.trans hr'
  have hown := LexerNetwork.isDefaultChannel_own_iff hr hw
  refine ⟨i, r, hr, hfirst, hout, hown, fun hdefault => ?_⟩
  have htype : k.tokenType = (LexerOutput.ofCommands ((i : Int) + 1) r.commands).tokenType := by
    rw [hout]
  have hchannel : k.channel = (LexerOutput.ofCommands ((i : Int) + 1) r.commands).channel := by
    rw [hout]
  by_cases heq : k.tokenType = (i : Int) + 1
  · -- The token is judged by the rule that matched it.
    rw [heq] at hdefault
    rw [hchannel]
    exact Or.inl (LexerOutput.channel_ofCommands _ (hown.mp hdefault))
  · have hgiven := LexerOutput.tokenType_ofCommands ((i : Int) + 1) r.commands
    rw [← htype] at hgiven
    exact Or.inr ⟨heq, hgiven.resolve_left heq⟩

/-- A rule for words, and a rule for notes that gives them the type of words and hides them. -/
def noteRules : List LexerRule :=
  [.ofPattern "WORD" (.literal "a"), ⟨"NOTE", .literal "b", [.type 1, .channel 1]⟩]

/-- The tokens of `ab`: a word, and a note with the type of words. -/
def noteTokens : List Token := [⟨1, 0, "a", ⟨0, 1⟩⟩, ⟨1, 1, "b", ⟨1, 2⟩⟩]

/-- Both tokens are judged as stated: the word by its own rule, and the note by a rule that did not
match it. -/
theorem notes_are_judged : (Lexer.ofRules noteRules).tokenize "ab" = .ok noteTokens ∧
    ∀ k ∈ noteTokens, ∃ i r, k.Judged noteRules i r := by
  have htokens : (Lexer.ofRules noteRules).tokenize "ab" = .ok noteTokens := by cbv
  exact ⟨htokens, fun k hk => default_channel_unless_retyped noteRules "ab" htokens hk⟩

/-- A note is on the hidden channel, but the type it was given is judged to be on the default
channel. -/
theorem retyped_token_is_misjudged :
    (Lexer.ofRules noteRules).tokenize "b" = .ok [⟨1, hiddenChannel, "b", ⟨0, 1⟩⟩] ∧
      (Lexer.ofRules noteRules).network.isDefaultChannel 1 = true ∧
      hiddenChannel ≠ defaultChannel := by
  refine ⟨by cbv, by cbv, by decide⟩

end Caret
