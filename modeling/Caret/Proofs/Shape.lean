import Caret.Proofs.CallStack
import Caret.Proofs.Completion

/-!
# `Caret.Proofs.Shape`: the shape of a completion

A completion joins what a traversal found, drops what is not wanted, and puts names in place of
numbers. Joining leaves one suggestion for each id, with the chains of its findings, each once
(`joined_merge`, `nodup_contexts_merge`). The chains come from stacks of calls, so they begin with
the first rule and hold rules of the grammar only (`Source.framed_found`). The names of the rules
differ (`Source.nodup_names`), so chains of rules that differ have names that differ, and nothing is
lost by naming them.

`completion_shape` puts this together for all configurations. Tokens off the default channel can be
left out, and this filters the suggestions and does nothing else.
-/

set_option autoImplicit false

namespace Caret

/-! ### Names -/

namespace Source

variable {s : Source} {g : Grammar}

/-- No two rules of an accepted grammar have the same name. -/
theorem nodup_names (h : s.build = .ok g) : (s.rules.map Rule.name).Nodup :=
  (checkNames_eq_ok_iff.mp (checkNames_of_build h)).2.1

/-- The names of rules are those that they are written with. -/
theorem ruleName_eq (h : s.build = .ok g) {r : RuleIndex} {rule : Rule Terminal String}
    (hr : s.rules[r]? = some rule) : g.recognizer.ruleName r = rule.name := by
  rw [build] at h
  obtain ⟨rules, -, h⟩ := exists_of_bind_ok h
  cases h
  simp [Recognizer.ruleName, hr]

/-- So a name belongs to one rule. -/
theorem ruleName_injOn (h : s.build = .ok g) {r r' : RuleIndex} (hr : r < s.rules.length)
    (hr' : r' < s.rules.length) (heq : g.recognizer.ruleName r = g.recognizer.ruleName r') :
    r = r' := by
  rw [ruleName_eq h (List.getElem?_eq_getElem hr), ruleName_eq h (List.getElem?_eq_getElem hr')]
    at heq
  have hlt : r < (s.rules.map Rule.name).length := by rwa [List.length_map]
  have hlt' : r' < (s.rules.map Rule.name).length := by rwa [List.length_map]
  have hget : (s.rules.map Rule.name)[r] = (s.rules.map Rule.name)[r'] := by
    simpa only [List.getElem_map] using heq
  exact (nodup_names h).getElem_inj_iff.mp hget

/-- Chains of rules of the grammar that have the same names are the same. -/
theorem chain_eq_of_names_eq (h : s.build = .ok g) {chain chain' : Chain}
    (hchain : ∀ r ∈ chain, r < s.rules.length) (hchain' : ∀ r ∈ chain', r < s.rules.length)
    (heq : chain.map g.recognizer.ruleName = chain'.map g.recognizer.ruleName) :
    chain = chain' := by
  induction chain generalizing chain' with
  | nil => exact (List.map_eq_nil_iff.mp heq.symm).symm
  | cons r chain ih =>
      cases chain' with
      | nil => cases heq
      | cons r' chain' =>
          obtain ⟨hr, hchain⟩ := List.forall_mem_cons.mp hchain
          obtain ⟨hr', hchain'⟩ := List.forall_mem_cons.mp hchain'
          obtain ⟨hname, hnames⟩ := List.cons.inj heq
          rw [ruleName_injOn h hr hr' hname, ih hchain hchain' hnames]

end Source

/-! ### Joined findings -/

/-- A candidate after one more finding: it was there, it is new, or the finding was noted at it. -/
theorem mem_note {m : List Candidate} {x : Finding} {c : Candidate} (h : c ∈ note m x) :
    c ∈ m ∨ c = x.candidate ∨ ∃ d ∈ m, c = d.noted x.2 := by
  induction m with
  | nil => exact Or.inr (Or.inl (List.mem_singleton.mp h))
  | cons d m ih =>
      by_cases hid : d.id = x.1
      · rw [note_cons_of_eq hid] at h
        rcases List.mem_cons.mp h with rfl | h
        · exact Or.inr (Or.inr ⟨d, List.mem_cons_self, rfl⟩)
        · exact Or.inl (List.mem_cons_of_mem _ h)
      · rw [note_cons_of_ne hid] at h
        rcases List.mem_cons.mp h with rfl | h
        · exact Or.inl List.mem_cons_self
        · rcases ih h with h | h | ⟨d', hd', h⟩
          · exact Or.inl (List.mem_cons_of_mem _ h)
          · exact Or.inr (Or.inl h)
          · exact Or.inr (Or.inr ⟨d', List.mem_cons_of_mem _ hd', h⟩)

/-- A chain is noted once. -/
theorem Candidate.nodup_noted {d : Candidate} (h : d.contexts.Nodup) (chain : Chain) :
    (d.noted chain).contexts.Nodup := by
  by_cases hnew : chain ∈ d.contexts
  · rwa [noted_of_mem hnew]
  · rw [noted_of_not_mem hnew]
    refine List.nodup_append.mpr ⟨h, List.nodup_singleton _, ?_⟩
    rintro c hc c' hc' rfl
    exact hnew (List.mem_singleton.mp hc' ▸ hc)

/-- So no chain is there twice after all findings are noted. -/
theorem nodup_contexts_noteAll {m : List Candidate} (h : ∀ c ∈ m, c.contexts.Nodup)
    (xs : List Finding) : ∀ c ∈ noteAll m xs, c.contexts.Nodup := by
  induction xs generalizing m with
  | nil => exact h
  | cons x xs ih =>
      refine ih fun c hc => ?_
      rcases mem_note hc with hc | rfl | ⟨d, hd, rfl⟩
      · exact h c hc
      · exact List.nodup_singleton _
      · exact Candidate.nodup_noted (h d hd) x.2

/-- Joined candidates have no chain twice. -/
theorem nodup_contexts_merge {xs : List Finding} :
    ∀ c ∈ merge (xs.map Finding.candidate), c.contexts.Nodup := by
  rw [merge_map_candidate]
  exact nodup_contexts_noteAll (by simp) xs

/-! ### Findings of a grammar -/

/-- In a chain in which only rules with a property are called, all rules have the property. -/
theorem Rooted.forall_mem {P : RuleIndex → Prop} {r : RuleIndex} {chain : Chain}
    (h : Rooted (fun _ callee => P callee) r chain) (hr : P r) : ∀ x ∈ chain, P x := by
  obtain ⟨hhead, hlinked⟩ := h
  induction chain generalizing r with
  | nil => simp
  | cons x chain ih =>
      cases hhead
      refine List.forall_mem_cons.mpr ⟨hr, ?_⟩
      cases chain with
      | nil => simp
      | cons y chain => exact ih hlinked.rel rfl hlinked.tail

namespace Source

variable {s : Source} {g : Grammar}

/-- The network has the rules of the grammar. -/
theorem start?_isSome_iff (h : s.build = .ok g) (hsize : s.numbering.size < 2 ^ 31 - 2)
    (r : RuleIndex) : (g.recognizer.network.start? r).isSome = true ↔ r < s.rules.length := by
  have hcount : g.recognizer.network.ruleCount = g.rules.length :=
    (realizes_of_build h hsize).count_eq
  rw [← length_rules h, ← hcount, Network.start?, Network.ruleCount]
  simp

/-- What a traversal of a grammar finds, with recovery or without it, has chains of rules of the
grammar, and each chain begins with the rule of the traversal. -/
theorem framed_found (h : s.build = .ok g) (hsize : s.numbering.size < 2 ^ 31 - 2)
    {stream : TokenStream} {options : Options}
    (htable : g.recognizer.network.HasTable options.firstTokens) {limit : Nat} {r : RuleIndex}
    {T : Traversal} (hT : traverse g.recognizer.network stream options limit r = .ok T) :
    ∃ xs : List Finding, T.found = xs.map Finding.candidate ∧
      ∀ x ∈ xs, x.Framed (fun _ callee => callee < s.rules.length) r options.reported := by
  -- A reference of the grammar names one of its rules.
  have hcalls : ∀ caller callee, s.Calls caller callee → callee < s.rules.length := by
    rintro caller callee ⟨_, _, _, hcallee, _⟩
    exact (List.getElem?_eq_some_iff.mp hcallee).1
  have hs := framed_of_build (R := fun _ callee => callee < s.rules.length)
    (s := .ofOptions g.recognizer.network stream options limit) h hsize hcalls rfl htable
  -- Recovery may open a rule that is nowhere called, but the rule must have a start state.
  refine Traversal.framed_of_run hs (fun m x _ callee _ _ hstart _ => ?_) hT
  exact (start?_isSome_iff h hsize callee).mp hstart

end Source

/-! ### Completions -/

/-- The configured traversal has no table, or the table of the network. -/
theorem Recognizer.exists_of_traverse {r : Recognizer} {config : Config} {limit : Nat}
    {tokens : List Token} {T : Traversal} (h : r.traverse config limit tokens = .ok T) :
    ∃ table, r.network.HasTable table ∧ Caret.traverse r.network (stream config tokens)
      ⟨config.reported, config.recovery, table⟩ limit config.initialRule = .ok T := by
  rw [traverse] at h
  split at h
  · obtain ⟨table, htable, h⟩ := exists_of_bind_ok h
    obtain ⟨f, hf, rfl⟩ := exists_of_map_ok htable
    exact ⟨some f, Or.inr ⟨limit, hf⟩, h⟩
  · exact ⟨none, trivial, h⟩

/-- The completion without the tokens that the lexer may take off the default channel. -/
def Completion.onDefaultChannel (network : LexerNetwork) (c : Completion) : Completion :=
  ⟨c.suggestions.filter fun x => x.tokenType?.all network.isDefaultChannel, c.stats⟩

/-- Leaving out tokens off the default channel filters the suggestions. -/
theorem Recognizer.completion_ignoring (r : Recognizer) (source : TokenSource) (config : Config)
    (T : Traversal) : r.completion source { config with ignoreOffChannel := true } T =
      (r.completion source { config with ignoreOffChannel := false } T).onDefaultChannel
        source.network := by
  -- Nothing is dropped if all channels are wanted.
  have hall : (merge T.found).filter (wanted source { config with ignoreOffChannel := false }) =
      merge T.found := by
    rw [List.filter_eq_self]
    intro c _
    rw [wanted]
    split <;> rfl
  simp only [completion, Completion.onDefaultChannel, hall, List.filter_map]
  congr 3
  funext c
  obtain ⟨id, contexts⟩ := c
  cases id <;> rfl

namespace Grammar

variable {g : Grammar} {config : Config} {limit : Nat} {input : String} {c : Completion}

/-- A completion names what a traversal of the initial rule found behind the tokens of the input,
with no table or with the table of the network. -/
theorem exists_traverse_of_complete (h : g.complete config limit input = .ok c) :
    ∃ tokens table T, g.lexer.source.tokenize input = .ok tokens ∧
      (g.recognizer.network.start? config.initialRule).isSome ∧
      g.recognizer.network.HasTable table ∧
      traverse g.recognizer.network (Recognizer.stream config tokens)
        ⟨config.reported, config.recovery, table⟩ limit config.initialRule = .ok T ∧
      c = g.recognizer.completion g.lexer.source config T := by
  rw [complete, Recognizer.complete] at h
  cases htokens : g.lexer.source.tokenize input with
  | error e =>
      simp only [htokens] at h
      cases h
  | ok tokens =>
      simp only [htokens] at h
      split at h
      · cases h
      · rename_i hstart
        cases hT : g.recognizer.traverse config limit tokens with
        | error cause =>
            simp only [hT] at h
            cases h
        | ok T =>
            simp only [hT] at h
            obtain ⟨table, htable, hT⟩ := Recognizer.exists_of_traverse hT
            rw [Option.isNone_iff_eq_none, ← ne_eq, ← Option.isSome_iff_ne_none] at hstart
            exact ⟨tokens, table, T, rfl, hstart, htable, hT, (Except.ok.inj h).symm⟩

/-- Leaving out tokens off the default channel drops their suggestions, and changes nothing else. -/
theorem complete_ignoring (g : Grammar) (config : Config) (limit : Nat) (input : String) :
    g.complete { config with ignoreOffChannel := true } limit input =
      (g.complete { config with ignoreOffChannel := false } limit input).map
        (Completion.onDefaultChannel g.lexer.network) := by
  simp only [complete, Recognizer.complete]
  cases g.lexer.source.tokenize input with
  | error e => rfl
  | ok tokens =>
      simp only
      split
      · rfl
      · -- The traversal does not depend on the choice.
        have hsame : g.recognizer.traverse { config with ignoreOffChannel := true } limit tokens =
          g.recognizer.traverse { config with ignoreOffChannel := false } limit tokens := rfl
        rw [hsame]
        cases g.recognizer.traverse { config with ignoreOffChannel := false } limit tokens with
        | error cause => rfl
        | ok T =>
            exact congrArg Except.ok (g.recognizer.completion_ignoring g.lexer.source config T)

end Grammar

/-- The findings that a suggestion stands for. -/
theorem mem_of_mem_merge {xs : List Finding} {c : Candidate}
    (h : c ∈ merge (xs.map Finding.candidate)) : ∀ chain ∈ c.contexts, (c.id, chain) ∈ xs :=
  fun chain hchain => mem_findings_merge.mp
    (List.mem_flatMap.mpr ⟨c, h, List.mem_map.mpr ⟨chain, hchain, rfl⟩⟩)

/-- What a candidate of a grammar looks like with names. -/
theorem Source.suggestion_shape {s : Source} {g : Grammar} (h : s.build = .ok g) {r : RuleIndex}
    {first : Rule Terminal String} (hr : s.rules[r]? = some first) {reported : List RuleIndex}
    {xs : List Finding}
    (hxs : ∀ x ∈ xs, x.Framed (fun _ callee => callee < s.rules.length) r reported)
    {c : Candidate} (hc : c ∈ merge (xs.map Finding.candidate)) :
    (g.recognizer.suggestion c).contexts ≠ [] ∧ (g.recognizer.suggestion c).contexts.Nodup ∧
      (∀ names ∈ (g.recognizer.suggestion c).contexts, names.head? = some first.name) ∧
      ∀ i, (g.recognizer.suggestion c).id = .rule i → i ∈ reported := by
  have hfound := mem_of_mem_merge hc
  have hlt : ∀ chain ∈ c.contexts, ∀ x ∈ chain, x < s.rules.length := fun chain hchain =>
    (hxs _ (hfound chain hchain)).rooted.forall_mem (List.getElem?_eq_some_iff.mp hr).1
  -- A candidate was found at least once.
  have hne : c.contexts ≠ [] := (joined_merge xs).contexts_ne_nil c hc
  refine ⟨fun hnil => hne (List.map_eq_nil_iff.mp hnil), ?_, ?_, ?_⟩
  · -- Names tell the rules of the grammar apart, and chains hold no other rules.
    refine (List.nodup_map_iff_inj_on (nodup_contexts_merge c hc)).mpr ?_
    intro chain hchain chain' hchain' heq
    exact chain_eq_of_names_eq h (hlt chain hchain) (hlt chain' hchain') heq
  · intro names hnames
    obtain ⟨chain, hchain, rfl⟩ := List.mem_map.mp hnames
    rw [List.head?_map, (hxs _ (hfound chain hchain)).rooted.head, Option.map_some,
      ruleName_eq h hr]
  · intro i hi
    obtain ⟨chain, hchain⟩ := List.exists_mem_of_ne_nil _ hne
    exact (hxs _ (hfound chain hchain)).reported i hi

/-- In a completion no two suggestions have the same id. Each suggestion has a context, no context
twice, and every context begins with the name of the initial rule, which is a rule of the grammar.
A rule is suggested only if it is to be reported. Leaving out tokens off the default channel filters
the suggestions, whatever comes of the completion otherwise. -/
theorem completion_shape {s : Source} {g : Grammar} (h : s.build = .ok g)
    (hsize : s.numbering.size < 2 ^ 31 - 2) (config : Config) (limit : Nat) (input : String) :
    (∀ c, g.complete config limit input = .ok c → c.ids.Nodup ∧
      ∃ first, s.rules[config.initialRule]? = some first ∧ ∀ x ∈ c.suggestions,
        x.contexts ≠ [] ∧ x.contexts.Nodup ∧
        (∀ names ∈ x.contexts, names.head? = some first.name) ∧
        ∀ i, x.id = .rule i → i ∈ config.reported) ∧
    g.complete { config with ignoreOffChannel := true } limit input =
      (g.complete { config with ignoreOffChannel := false } limit input).map fun c =>
        ⟨c.suggestions.filter fun x => x.tokenType?.all g.lexer.network.isDefaultChannel,
          c.stats⟩ := by
  refine ⟨fun c hc => ?_, g.complete_ignoring config limit input⟩
  obtain ⟨tokens, table, T, -, hstart, htable, hT, rfl⟩ := Grammar.exists_traverse_of_complete hc
  obtain ⟨xs, hxs, hframed⟩ := Source.framed_found h hsize htable hT
  have hlt := (Source.start?_isSome_iff h hsize config.initialRule).mp hstart
  constructor
  · exact Recognizer.nodup_ids_of_joined _ _ _ (hxs ▸ joined_merge xs)
  · refine ⟨s.rules[config.initialRule], List.getElem?_eq_getElem hlt, fun x hx => ?_⟩
    obtain ⟨c, hc, rfl⟩ := List.mem_map.mp hx
    -- A suggestion is a joined candidate that was not dropped.
    have hc := (List.mem_filter.mp hc).1
    rw [hxs] at hc
    exact Source.suggestion_shape h (List.getElem?_eq_getElem hlt) hframed hc

/-- Two items or more, with a blank behind the first one. Blanks are off the default channel. -/
def pairGrammar : Source where
  rules := [
    ⟨"pair", .plain (.seq [.rule "item", .optional (.terminal (.one (.token "BLANK"))) true,
      .alt [.rule "item", .rule "more"]])⟩,
    ⟨"item", .plain (.terminal (.one (.literal "x")))⟩,
    ⟨"more", .plain (.seq [.rule "item", .rule "item"])⟩]
  lexerRules := [(LexerRule.ofPattern "BLANK" (.literal " ")).hidden]

/-- Complete pairs, with more items suggested as a whole. -/
def pairConfig : Config := { Config.default with reported := [2] }

/-- Names of suggestions come from a completion in an accepted grammar. -/
theorem Source.exists_of_names? {s : Source} {config : Config} {limit : Nat} {input : String}
    {names : List String} (h : s.names? config limit input = some names) :
    ∃ g c, s.build = .ok g ∧ g.complete config limit input = .ok c ∧ c.names = names := by
  rw [names?] at h
  cases hbuild : s.build with
  | error e =>
      rw [hbuild] at h
      cases h
  | ok g =>
      rw [hbuild] at h
      obtain ⟨c, hc, hnames⟩ := Option.map_eq_some_iff.mp h
      cases hcomplete : g.complete config limit input with
      | error e =>
          rw [hcomplete] at hc
          cases hc
      | ok c' =>
          rw [hcomplete] at hc
          cases hc
          exact ⟨g, c, rfl, hcomplete, hnames⟩

/-- Behind `x` a blank, an item, and the rule for more items are suggested, all below the pair. If
blanks are left out, the other two stay. -/
theorem pair_completion_shape : ∃ g c, pairGrammar.build = .ok g ∧
    pairGrammar.numbering.size < 2 ^ 31 - 2 ∧
    g.complete pairConfig 1000 "x" = .ok c ∧ c.names = ["BLANK", "x", "more"] ∧ c.ids.Nodup ∧
    (∀ x ∈ c.suggestions, x.contexts.Nodup ∧ ∀ names ∈ x.contexts, names.head? = some "pair") ∧
    g.complete { pairConfig with ignoreOffChannel := true } 1000 "x" =
      .ok ⟨c.suggestions.filter fun x => x.tokenType?.all g.lexer.network.isDefaultChannel,
        c.stats⟩ ∧
    pairGrammar.names? { pairConfig with ignoreOffChannel := true } 1000 "x" =
      some ["x", "more"] := by
  obtain ⟨hnames, hrest⟩ :
      pairGrammar.names? pairConfig 1000 "x" = some ["BLANK", "x", "more"] ∧
      pairGrammar.names? { pairConfig with ignoreOffChannel := true } 1000 "x" =
        some ["x", "more"] := by
    cbv
  have hsize : pairGrammar.numbering.size < 2 ^ 31 - 2 := by decide
  obtain ⟨g, c, hbuild, hc, hnames⟩ := Source.exists_of_names? hnames
  obtain ⟨hshape, hfilter⟩ := completion_shape hbuild hsize pairConfig 1000 "x"
  obtain ⟨hnodup, first, hfirst, hcontexts⟩ := hshape c hc
  cases hfirst
  have hsame : g.complete { pairConfig with ignoreOffChannel := false } 1000 "x" = .ok c := hc
  rw [hsame] at hfilter
  exact ⟨g, c, hbuild, hsize, hc, hnames, hnodup,
    fun x hx => ⟨(hcontexts x hx).2.1, (hcontexts x hx).2.2.1⟩, hfilter, hrest⟩

end Caret
