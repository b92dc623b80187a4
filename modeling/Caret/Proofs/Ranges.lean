import Caret.Proofs.Shape
import Caret.Proofs.Termination
import Caret.Proofs.Tokenization

/-!
# `Caret.Proofs.Ranges`: no number leaves its range

Completing an input counts bytes, lines, tokens, recoveries and levels of operators. They are
numbers of 32 or 64 bits. For the network of a grammar that is accepted, and an input of fewer than
`2 ^ 32 - 1` bytes, all of them stay in range:

* tokens are pieces of the input, and a lexical error has a place in it (`Lexer.inRange_of_ok`,
  `Lexer.inRange_of_error`);
* no segment of the input is empty, so there are no more tokens than bytes
  (`Segmentation.length_le`);
* on the stack of a machine no position is behind the caret, and every recovery on the way there has
  passed over a token (`Task.Bounded`), so both are at most the number of tokens;
* levels are at most the number of operators of a rule, and one more for a right operand
  (`Source.levelsWithin_of_build`);
* recovery rules are used no more often than there are pairs of a rule and a token
  (`Machine.Reaches.sum_le`).

`complete_is_total` puts this together with the end of every traversal: an input has a lexical
error, or the initial rule does not exist, or there is a completion.
-/

set_option autoImplicit false

namespace Caret

/-! ### Text -/

/-- No segment is empty, so there are no more segments than bytes. -/
theorem Segmentation.length_le {rules : List LexerRule} {p q : Nat} {cs left : List Char}
    {segs : List Segment} (h : Segmentation rules p cs segs q left) :
    segs.length ≤ byteLength cs := by
  induction h with
  | stop => exact Nat.zero_le _
  | @next p q cs left segs i k hlongest hrest ih =>
      have hne : cs.take k ≠ [] := ((Segmentation.next hlongest hrest).of_mem List.mem_cons_self).1
      have hpos := byteLength_pos hne
      -- What is cut off has a byte at least, and the other segments lie in the rest.
      have hsplit : byteLength cs = byteLength (cs.take k) + byteLength (cs.drop k) := by
        rw [← byteLength_append, List.take_append_drop]
      rw [List.length_cons]
      omega

/-- The place of a lexical error lies in the text: it is that of a character, in one of the lines,
and its column counts from the start of a line. -/
structure LexicalError.InRange (text : String) (e : LexicalError) : Prop where
  piece : ∃ before after, text.toList = before ++ e.char :: after ∧
    e.span = ⟨byteLength before, byteLength before + e.char.utf8Size⟩
  column : ∃ start ∈ (Lines.ofText text).starts, start + e.column = e.span.start
  line : 0 < e.line ∧ e.line ≤ (Lines.ofText text).count ∧ e.line ≤ nat32Max

/-- The token is a piece of the text. -/
structure Token.InRange (text : String) (t : Token) : Prop where
  range_lt : t.range.start < t.range.stop
  range_le : t.range.stop ≤ byteLength text.toList
  piece : ∃ before after, text.toList = before ++ t.text.toList ++ after ∧
    t.range.start = byteLength before

section

variable {rules : List LexerRule} {text : String}

/-- A lexical error has its place in the text. -/
theorem Lexer.inRange_of_error (hlen : byteLength text.toList < nat32Max) {e : LexicalError}
    (h : (Lexer.ofRules rules).tokenize text = .error e) : e.InRange text := by
  obtain ⟨segs, q, left, hsegs⟩ := Segmentation.exists_segmentation rules 0 text.toList
  rw [tokenize, tokensFrom_eq hsegs (by omega)] at h
  cases left with
  | nil => cases h
  | cons c rest =>
      cases h
      -- The error is at the first character that is left.
      obtain ⟨htext, hq⟩ := hsegs.flatMap_text
      have hle : q + c.utf8Size ≤ byteLength text.toList := by
        rw [← htext, byteLength_append, byteLength]
        omega
      have hstart : textOffset q = q := textOffset_eq (by omega)
      have hstop : textOffset (q + c.utf8Size) = q + c.utf8Size := textOffset_eq (by omega)
      have hstarts := Lines.starts_ofText text (by omega)
      obtain ⟨hline, start, hmem, hcolumn, -⟩ :=
        Lines.position_liesAt text (by omega) (show q ≤ _ by omega)
      refine ⟨⟨segs.flatMap Segment.text, rest, htext.symm, ?_⟩, ⟨start, hstarts ▸ hmem, ?_⟩, ?_⟩
      · simp only [LexicalError.ofPosition, TextRange.ofIndices, hstart, hstop]
        rw [← hq, Nat.zero_add]
      · simp only [LexicalError.ofPosition, TextRange.ofIndices, hstart]
        exact hcolumn
      · -- There are no more line ends than characters.
        have hreached : (lineEnds text.toList).countP (· ≤ q) ≤ (lineEnds text.toList).length :=
          List.countP_le_length
        have hends := length_lineEnds_le text.toList
        have hbytes := length_le_byteLength text.toList
        simp only [LexicalError.ofPosition, hstart, hline, Lines.count, hstarts, List.length_cons]
        omega

/-- There are no more tokens than bytes, and each is a piece of the text. -/
theorem Lexer.inRange_of_ok (hlen : byteLength text.toList ≤ nat32Max) {tokens : List Token}
    (h : (Lexer.ofRules rules).tokenize text = .ok tokens) :
    tokens.length ≤ byteLength text.toList ∧ ∀ t ∈ tokens, t.InRange text := by
  obtain ⟨segs, q, left, hsegs⟩ := Segmentation.exists_segmentation rules 0 text.toList
  rw [tokenize, tokensFrom_eq hsegs (by omega)] at h
  cases left with
  | cons c rest => cases h
  | nil =>
      cases h
      -- Tokens are the segments that are not skipped.
      refine ⟨(List.length_filterMap_le _ _).trans hsegs.length_le, fun t ht => ?_⟩
      obtain ⟨before, after, hpiece, hrange⟩ := hsegs.tiling.boundaries t ht
      refine ⟨hsegs.tiling.nonempty t ht, ?_, before, after, hpiece, by rw [hrange]⟩
      rw [hrange, hpiece, byteLength_append _ after]
      exact Nat.le_add_right _ _

end

/-! ### Positions -/

/-- The level of a call or a gate. -/
def Edge.level? : Edge → Option Int
  | .call _ _ _ level => some level
  | .gate _ level => some level
  | _ => none

/-- The levels of all calls and gates in the network are between zero and `top`. -/
def Network.LevelsWithin (n : Network) (top : Int) : Prop :=
  ∀ a s, n.state? a = some s → ∀ e ∈ s.edges, ∀ level ∈ e.level?, 0 ≤ level ∧ level ≤ top

/-- Every recovery on the way has passed over a token, and the levels of the open calls are between
zero and `top`. -/
structure Position.Bounded (top : Int) (p : Position) : Prop where
  recoveries_le : p.recoveries ≤ p.index
  levels : ∀ c ∈ p.calls, 0 ≤ c.level ∧ c.level ≤ top

/-- The same for a task. A guard remembers the level of its call. -/
def Task.Bounded (top : Int) : Task → Prop
  | .explore p => p.Bounded top
  | .watch p g => p.Bounded top ∧ 0 ≤ g.level ∧ g.level ≤ top

section

variable {s : Setting} {top : Int} {p q : Position}

/-- The position of a bounded task is bounded. -/
theorem Task.Bounded.position {t : Task} (h : t.Bounded top) : t.position.Bounded top := by
  cases t with
  | explore p => exact h
  | watch p g => exact h.1

/-- Leaving a rule closes a call, and nothing else changes. -/
theorem Position.Bounded.departs (hp : p.Bounded top) {e : Edge} {leaving : Bool}
    (h : p.Departs s.network e q leaving) : q.Bounded top := by
  cases h with
  | inside _ _ _ => exact hp
  | leaving _ _ hcalls _ _ =>
      exact ⟨hp.recoveries_le, fun c hc => hp.levels c (hcalls ▸ List.mem_cons_of_mem _ hc)⟩

/-- A recovery goes forward by a token at least. -/
theorem Position.Bounded.resume (hp : p.Bounded top) {g : Guard}
    (hg : 0 ≤ g.level ∧ g.level ≤ top) {x : RecoveryRule} (h : s.resume p g x = .ok (some q)) :
    q.Bounded top := by
  obtain ⟨hrecoveries, hplace⟩ := s.resume_place h
  obtain ⟨-, ⟨found, hfound, hindex⟩, -⟩ := Setting.resume_eq_some h
  have hlt := (TokenStream.findAfter?_eq_some hfound).1
  have hle := hp.recoveries_le
  constructor
  · -- One more recovery, and at least one more token.
    rw [hrecoveries, hindex]
    split <;> omega
  · rcases hplace with ⟨-, hcalls⟩ | ⟨callee, -, -, hcalls⟩
    · rw [hcalls]
      exact hp.levels
    · rw [hcalls]
      exact List.forall_mem_cons.mpr ⟨hg, hp.levels⟩

/-- What a bounded task puts on the stack is bounded. Levels come from the network, and recoveries
are counted where a token is passed over. -/
theorem Task.Bounded.of_spawns (hn : s.network.LevelsWithin top) {t t' : Task} (h : t.Bounded top)
    (hspawns : t.Spawns s t') : t'.Bounded top := by
  cases hspawns with
  | watch _ hresume => exact Position.Bounded.resume h.1 h.2 hresume
  | @explore p effects x found t' hexplore hx htask =>
      rcases exists_departs_of_mem hexplore hx with
        ⟨rfl, -⟩ | ⟨e, q, leaving, here, hdeparts, hhere, hx⟩
      · cases htask
      obtain ⟨hrecoveries, hlevels⟩ := Position.Bounded.departs h hdeparts
      rcases effect_of_follow hhere hx with ⟨-, -, -, rfl⟩ | ⟨t, rule, f, level, rfl, -, hcall⟩ |
          ⟨t, label, rfl, hread⟩
      · cases htask
        cases leaving <;> exact ⟨hrecoveries, hlevels⟩
      · -- The level of a new call or a new guard is that of an edge of the network.
        obtain ⟨state, hstate, he⟩ := hdeparts.mem_edges
        have hlevel := hn _ _ hstate _ he level rfl
        rcases effect_of_call hcall hx with ⟨c, rfl⟩ | rfl | ⟨rfl, -⟩ | ⟨k, r, rfl, -, -⟩
        · cases htask
        · cases htask
          exact ⟨hrecoveries, List.forall_mem_cons.mpr ⟨hlevel, hlevels⟩⟩
        · cases htask
          exact ⟨hrecoveries, hlevels⟩
        · cases htask
          exact ⟨⟨hrecoveries, hlevels⟩, hlevel⟩
      · rcases effect_of_read hread hx with ⟨c, rfl⟩ | ⟨t, -, rfl⟩
        · cases htask
        · cases htask
          exact ⟨Nat.le_succ_of_le hrecoveries, hlevels⟩

/-- Every task on the stack is bounded, since the first one is. -/
theorem Machine.Reaches.bounded (hn : s.network.LevelsWithin top) (htop : 0 ≤ top) {r : RuleIndex}
    {start : StateId} {m : Machine} (h : Machine.Reaches s (.start r start) m) :
    ∀ t ∈ m.pending, t.Bounded top := by
  refine h.forall_pending (fun t t' ht => ht.of_spawns hn) ?_
  intro t ht
  rw [List.mem_singleton.mp ht]
  exact ⟨Nat.le_refl 0, List.forall_mem_singleton.mpr ⟨Int.le_refl 0, htop⟩⟩

end

/-! ### Uses of recovery rules -/

/-- A state belongs to one rule, so there are no more rules than states. -/
theorem Network.Owned.ruleCount_le {n : Network} {P : RuleIndex → Edge → Prop} (h : n.Owned P)
    (ht : n.Tidy) : n.ruleCount ≤ n.states.size := by
  -- Different rules start at different states.
  have hnodup : n.starts.toList.Nodup := by
    refine List.nodup_iff_injective_getElem.mpr fun i j heq => Fin.ext ?_
    have hstart : ∀ i : Fin n.starts.toList.length, n.start? i.1 = some n.starts.toList[i.1] :=
      fun i => by rw [← List.getElem?_eq_getElem, Array.getElem?_toList, start?]
    exact (h.start _ _ (hstart i)).unique (h.start _ _ ((hstart j).trans (congrArg some heq.symm)))
  have hsub : n.starts.toList ⊆ List.range n.states.size := by
    intro a ha
    obtain ⟨r, hr⟩ := List.mem_iff_getElem?.mp ha
    rw [Array.getElem?_toList] at hr
    exact List.mem_range.mpr (ht.start_lt r a hr)
  have hle := hnodup.length_le_of_subset hsub
  rwa [List.length_range] at hle

namespace Machine

variable {s : Setting} {m last : Machine} {js : List Jump}

/-- Recovery is for rules of the network. -/
theorem Makes.inRule_lt (ht : s.network.Tidy) (h : Makes s m js last)
    (hm : ∀ t ∈ m.pending, t.Sound s) : ∀ j ∈ js, j.rule.inRule < s.network.ruleCount := by
  have hnext : ∀ {m m' : Machine}, (∀ t ∈ m.pending, t.Sound s) → Next s m m' →
      ∀ t ∈ m'.pending, t.Sound s := fun hm hstep =>
    Reaches.forall_pending (.single hstep) (fun _ _ => Task.Sound.of_spawns) hm
  induction h with
  | refl m => simp
  | quiet hstep _ _ ih => exact ih (hnext hm hstep)
  | @jump m next last js p q g x hfires _ ih =>
      refine List.forall_mem_cons.mpr ⟨?_, ih (hnext hm hfires.next)⟩
      -- The guard stands behind a call of the rule.
      obtain ⟨x', hx', a, state, hstate, target, level, hcall⟩ :
          (Task.watch p g).Sound s := hm _ (List.mem_of_mem_head? hfires.guarded)
      cases hfires.rule_eq.symm.trans hx'
      have hstart := ht.call_start a state hstate _ _ _ _ hcall
      exact (Array.getElem?_eq_some_iff.mp hstart).1

/-- There are no more uses than pairs of a rule and a token. -/
theorem Reaches.sum_le (ht : s.network.Tidy) {r : RuleIndex} {start : StateId}
    (h : Reaches s (.start r start) m) :
    m.stats.sum ≤ s.network.ruleCount * (s.stream.caret - 1) := by
  obtain ⟨js, hjs, hnodup, hproper, -, hsum⟩ := h.exists_jumps
  have hlength := Jump.length_le_of_mem hnodup hproper
    fun j hj => List.mem_range.mpr (hjs.inRule_lt ht (Reaches.sound .refl) j hj)
  rw [List.length_range] at hlength
  exact hsum ▸ hlength

end Machine

/-! ### Machines -/

/-- The numbers of a task are in range: its state, what is read of the tokens, the recoveries on the
way there, the levels of the open calls, and the recovery rule of a guard. -/
structure Task.InRange (s : Setting) (t : Task) : Prop where
  state_lt : t.position.state < s.network.states.size
  index_le : t.position.index ≤ s.stream.caret
  recoveries_le : t.position.recoveries ≤ t.position.index
  levels : ∀ c ∈ t.position.calls, 0 ≤ c.level ∧ c.level ≤ int32Max
  recovery_lt : ∀ p g, t = .watch p g → g.recovery < s.options.recovery.length

/-- All numbers of a machine are in range, and so is the number of uses of recovery rules. -/
structure Machine.InRange (s : Setting) (m : Machine) : Prop where
  pending : ∀ t ∈ m.pending, t.InRange s
  sum_le : m.stats.sum ≤ nat64Max

namespace Source

variable {s : Source} {g : Grammar}

/-- The levels of a network count operators, so they are within the range of numbers. -/
theorem levelsWithin_of_build (h : s.build = .ok g) (hsize : s.numbering.size < 2 ^ 31 - 2)
    (hoperators : ∀ r ∈ s.rules, r.body.operatorCount < 2 ^ 31 - 2) :
    g.recognizer.network.LevelsWithin int32Max := by
  intro a state hstate e he level hlevel
  by_cases hkind : state.kind = .ruleStop
  · -- A stop state has no calls and no gates.
    obtain ⟨t, rfl, -⟩ := (realizes_of_build h hsize).tidy.stop_edges a state hstate hkind _ he
    cases hlevel
  · have hpermits := ((owned_of_build h).edges a state hstate hkind e he).2
    have hbound : ∀ {r}, s.rules[state.rule]? = some r → r.body.operatorCount < 2 ^ 31 - 2 :=
      fun hr => hoperators _ (List.mem_of_getElem? hr)
    rw [int32Max]
    cases e with
    | call t callee f level' =>
        cases hlevel
        obtain ⟨-, hlow, r, hr, hhigh⟩ := hpermits
        have hcount := hbound hr
        omega
    | gate t level' =>
        cases hlevel
        obtain ⟨hlow, r, hr, hhigh⟩ := hpermits
        have hcount := hbound hr
        omega
    | _ => cases hlevel

/-- In every run of the network of a grammar the numbers stay in range, with any recovery rules. -/
theorem inRange_of_reaches (h : s.build = .ok g) (hsize : s.numbering.size < 2 ^ 31 - 2)
    (hoperators : ∀ r ∈ s.rules, r.body.operatorCount < 2 ^ 31 - 2)
    (hstates : g.recognizer.network.states.size < 2 ^ 32) {S : Setting}
    (hS : S.network = g.recognizer.network)
    (htable : g.recognizer.network.HasTable S.options.firstTokens)
    (hcaret : S.stream.caret < 2 ^ 32) {r : RuleIndex} {start : StateId}
    (hstart : S.network.start? r = some start) {m : Machine}
    (hm : Machine.Reaches S (.start r start) m) : m.InRange S := by
  have htidy : S.network.Tidy := hS ▸ (realizes_of_build h hsize).tidy
  have hlevels : S.network.LevelsWithin int32Max := hS ▸ levelsWithin_of_build h hsize hoperators
  have hframed := framed_of_build (R := fun _ _ => True) h hsize (fun _ _ _ => trivial) hS htable
  have hpositions := hm.framed hframed hstart fun _ _ _ _ _ _ _ => trivial
  have hbounded := hm.bounded hlevels (by decide)
  constructor
  · intro t ht
    obtain ⟨hrecoveries, hlevels⟩ := (hbounded t ht).position
    refine ⟨?_, (hpositions.pending t ht).index_le, hrecoveries, hlevels, ?_⟩
    · obtain ⟨rule, state, hstate, -⟩ := (hpositions.pending t ht).stacked.exists_belongs
      exact (Array.getElem?_eq_some_iff.mp hstate).1
    · rintro p g rfl
      obtain ⟨x, hx, -⟩ : (Task.watch p g).Sound S := hm.sound _ ht
      exact (List.getElem?_eq_some_iff.mp hx).1
  · -- There are fewer than `2 ^ 32` rules, and as many tokens.
    have hrules : S.network.ruleCount < 2 ^ 32 := by
      rw [hS]
      exact Nat.lt_of_le_of_lt ((owned_of_build h).ruleCount_le (hS ▸ htidy)) hstates
    calc m.stats.sum ≤ S.network.ruleCount * (S.stream.caret - 1) := hm.sum_le htidy
      _ ≤ (2 ^ 32 - 1) * (2 ^ 32 - 1) := Nat.mul_le_mul (by omega) (by omega)
      _ ≤ nat64Max := by decide

end Source

/-! ### Completions -/

/-- Tokens on other channels may be left out, and none is added. -/
theorem Recognizer.caret_stream_le (config : Config) (tokens : List Token) :
    (stream config tokens).caret ≤ tokens.length := by
  rw [TokenStream.caret, stream, List.size_toArray, List.length_map]
  exact List.length_filter_le _ _

namespace Source

variable {s : Source} {g : Grammar}

/-- The configured traversal ends, with recovery rules or without. -/
theorem exists_traverse_config_ends (h : s.build = .ok g) (hsize : s.numbering.size < 2 ^ 31 - 2)
    (config : Config) {tokens : List Token} (htokens : tokens.length < 2 ^ 32) :
    ∃ T, Ends (fun limit => g.recognizer.traverse config limit tokens) T := by
  have hwf := wellFormed_of_build h hsize
  have hn := realizes_of_build h hsize
  have hlength : ((tokens.filter fun t => config.includeOffChannel || t.isDefaultChannel).map
      Token.tokenType).length < 2 ^ 32 :=
    Nat.lt_of_le_of_lt (Recognizer.caret_stream_le config tokens) htokens
  by_cases hfirst : config.useFirstTokens = true
  · -- The table comes first, and the traversal uses it.
    obtain ⟨f, ⟨bound, hf⟩, hdescribes⟩ := FirstTokens.ofNetwork_ends hwf hn
    obtain ⟨T, bound', hT⟩ := exists_traverse_ends hwf hn hlength
      ⟨config.reported, config.recovery, some f⟩
      (fun f' hf' r hr => by cases hf'; exact hdescribes.knownNullable hwf hr) config.initialRule
    refine ⟨T, max bound bound', fun limit hlimit => ?_⟩
    have hlow := hf limit (le_trans (le_max_left _ _) hlimit)
    have hhigh := hT limit (le_trans (le_max_right _ _) hlimit)
    simp only [Recognizer.traverse, hfirst, if_true]
    simp only at hlow
    rw [hlow]
    exact hhigh
  · obtain ⟨T, hT⟩ := exists_traverse_ends hwf hn hlength
      ⟨config.reported, config.recovery, none⟩ (fun _ hf => by cases hf) config.initialRule
    refine ⟨T, hT.congr 0 fun limit _ => ?_⟩
    simp only [Recognizer.traverse, hfirst]
    rfl

/-- The uses of recovery rules in the configured traversal can be added up. -/
theorem exists_total (h : s.build = .ok g) (hsize : s.numbering.size < 2 ^ 31 - 2)
    (hoperators : ∀ r ∈ s.rules, r.body.operatorCount < 2 ^ 31 - 2)
    (hstates : g.recognizer.network.states.size < 2 ^ 32) {config : Config}
    (hinitial : config.initialRule < s.rules.length) {tokens : List Token}
    (htokens : tokens.length < 2 ^ 32) {limit : Nat} {T : Traversal}
    (hT : g.recognizer.traverse config limit tokens = .ok T) :
    ∃ total, T.stats.total? = .ok total := by
  obtain ⟨table, htable, hT⟩ := Recognizer.exists_of_traverse hT
  obtain ⟨start, hstart⟩ := Option.isSome_iff_exists.mp
    ((start?_isSome_iff h hsize config.initialRule).mpr hinitial)
  obtain ⟨last, hrun, rfl⟩ := Traversal.exists_run hstart hT
  have hrange := inRange_of_reaches h hsize hoperators hstates
    (S := .ofOptions g.recognizer.network (Recognizer.stream config tokens)
      ⟨config.reported, config.recovery, table⟩ limit)
    rfl htable (Nat.lt_of_le_of_lt (Recognizer.caret_stream_le config tokens) htokens) hstart
    (Machine.reaches_of_run hrun).1
  refine ⟨last.stats.sum, ?_⟩
  show last.stats.total? = _
  rw [RecoveryStats.total?_eq]
  exact if_pos (Nat.lt_succ_of_le hrange.sum_le)

/-- Without the initial rule nothing is completed. -/
theorem complete_eq_invalidInitialRule (h : s.build = .ok g)
    (hsize : s.numbering.size < 2 ^ 31 - 2) {config : Config}
    (hinitial : ¬ config.initialRule < s.rules.length) {input : String} {tokens : List Token}
    (htokens : g.lexer.source.tokenize input = .ok tokens) (limit : Nat) :
    g.complete config limit input = .error (.invalidInitialRule config.initialRule) := by
  have hnone : (g.recognizer.network.start? config.initialRule).isNone = true := by
    rw [Option.isNone_iff_eq_none, ← Option.not_isSome_iff_eq_none, start?_isSome_iff h hsize]
    exact hinitial
  simp only [Grammar.complete, Recognizer.complete, htokens, hnone, if_true]

/-- The lexer has the rules of the numbering, implicit literals included. -/
theorem lexer_eq (h : s.build = .ok g) : g.lexer = .ofRules s.numbering.allRules := by
  rw [build] at h
  obtain ⟨rules, -, h⟩ := exists_of_bind_ok h
  cases h
  rfl

end Source

/-- Completing an input always comes to an end, with a completion unless the input has a lexical
error or the initial rule does not exist. On the way no number leaves its range: places of tokens
and errors lie in the input, levels are signed 32-bit numbers, and whatever tokens, reported rules
and recovery rules a traversal is given, its machine stays in range. -/
theorem complete_is_total {s : Source} {g : Grammar} (h : s.build = .ok g)
    (hsize : s.numbering.size < 2 ^ 31 - 2)
    (hoperators : ∀ r ∈ s.rules, r.body.operatorCount < 2 ^ 31 - 2)
    (hstates : g.recognizer.network.states.size < 2 ^ 32) (config : Config) (input : String)
    (hinput : byteLength input.toList < 2 ^ 32 - 1) :
    (∃ outcome bound, (∀ limit, bound ≤ limit → g.complete config limit input = outcome) ∧
      match g.lexer.source.tokenize input with
      | .error e => outcome = .error (.lexical e) ∧ e.InRange input
      | .ok tokens =>
          (tokens.length ≤ byteLength input.toList ∧ ∀ t ∈ tokens, t.InRange input) ∧
          if config.initialRule < s.rules.length then
            ∃ c total, outcome = .ok c ∧ c.stats.total? = .ok total
          else outcome = .error (.invalidInitialRule config.initialRule)) ∧
    g.recognizer.network.LevelsWithin int32Max ∧
    ∀ S : Setting, S.network = g.recognizer.network →
      g.recognizer.network.HasTable S.options.firstTokens →
      S.stream.caret ≤ byteLength input.toList →
      ∀ r start m, S.network.start? r = some start → Machine.Reaches S (.start r start) m →
        m.InRange S := by
  refine ⟨?_, Source.levelsWithin_of_build h hsize hoperators, fun S hS htable hcaret r start m
    hstart hm =>
    Source.inRange_of_reaches h hsize hoperators hstates hS htable (by omega) hstart hm⟩
  have hlexer : g.lexer.source.tokenize input =
      (Lexer.ofRules s.numbering.allRules).tokenize input := by
    rw [Source.lexer_eq h]
    rfl
  cases htokens : g.lexer.source.tokenize input with
  | error e =>
      refine ⟨_, 0, fun limit _ => ?_, rfl, Lexer.inRange_of_error hinput (hlexer ▸ htokens)⟩
      simp only [Grammar.complete, Recognizer.complete, htokens]
  | ok tokens =>
      have hrange := Lexer.inRange_of_ok (Nat.le_of_lt hinput) (hlexer ▸ htokens)
      have hlength : tokens.length < 2 ^ 32 := by omega
      by_cases hinitial : config.initialRule < s.rules.length
      · -- The traversal ends, and its last machine has counted the uses of recovery rules.
        obtain ⟨T, bound, hT⟩ := Source.exists_traverse_config_ends h hsize config hlength
        obtain ⟨total, htotal⟩ := Source.exists_total h hsize hoperators hstates hinitial hlength
          (hT bound (Nat.le_refl _))
        refine ⟨_, bound, fun limit hlimit =>
          Source.complete_eq h hsize config hinitial htokens (hT limit hlimit), hrange, ?_⟩
        rw [if_pos hinitial]
        exact ⟨_, total, rfl, htotal⟩
      · refine ⟨_, 0, fun limit _ =>
          Source.complete_eq_invalidInitialRule h hsize hinitial htokens limit, hrange, ?_⟩
        rw [if_neg hinitial]

/-- Complete lists, and go on at a comma where a sum fails. -/
def listConfig : Config := { Config.default with recovery := [.finishRule 1 1] }

/-- In `(xx,x` a comma follows the sum that fails, in `x?` there is no token at `?`, and there are
two rules. -/
theorem list_completions : ∃ g, productGrammar.build = .ok g ∧
    productGrammar.numbering.size < 2 ^ 31 - 2 ∧
    (∀ r ∈ productGrammar.rules, r.body.operatorCount < 2 ^ 31 - 2) ∧
    g.recognizer.network.states.size < 2 ^ 32 ∧
    (∃ c total bound, c.stats.total? = .ok total ∧
      ∀ limit, bound ≤ limit → g.complete listConfig limit "(xx,x" = .ok c) ∧
    (∃ e bound, LexicalError.InRange "x?" e ∧
      ∀ limit, bound ≤ limit → g.complete listConfig limit "x?" = .error (.lexical e)) ∧
    ∃ bound, ∀ limit, bound ≤ limit →
      g.complete { listConfig with initialRule := 2 } limit "x" =
        .error (.invalidInitialRule 2) := by
  obtain ⟨g, hbuild⟩ := exists_build_productGrammar
  have hsize := size_numbering_productGrammar
  have hoperators : ∀ r ∈ productGrammar.rules, r.body.operatorCount < 2 ^ 31 - 2 := by decide
  have hcheck : (productGrammar.build.toOption.map fun g =>
      (g.recognizer.network.states.size, (g.lexer.source.tokenize "(xx,x").isOk,
        (g.lexer.source.tokenize "x?").isOk, (g.lexer.source.tokenize "x").isOk)) =
      some (26, true, false, true) := by cbv
  rw [hbuild] at hcheck
  simp only [Except.toOption, Option.map_some, Option.some.injEq, Prod.mk.injEq] at hcheck
  obtain ⟨hcount, hlist, hunknown, hproduct⟩ := hcheck
  have hstates : g.recognizer.network.states.size < 2 ^ 32 := by
    rw [hcount]
    decide
  have htotal := complete_is_total hbuild hsize hoperators hstates
  refine ⟨g, hbuild, hsize, hoperators, hstates, ?_, ?_, ?_⟩
  · obtain ⟨⟨outcome, bound, houtcome, hcases⟩, -⟩ := htotal listConfig "(xx,x" (by decide)
    cases htokens : g.lexer.source.tokenize "(xx,x" with
    | error e =>
        rw [htokens] at hlist
        cases hlist
    | ok tokens =>
        rw [htokens] at hcases
        obtain ⟨c, total, rfl, hc⟩ := hcases.2
        exact ⟨c, total, bound, hc, houtcome⟩
  · obtain ⟨⟨outcome, bound, houtcome, hcases⟩, -⟩ := htotal listConfig "x?" (by decide)
    cases htokens : g.lexer.source.tokenize "x?" with
    | error e =>
        rw [htokens] at hcases
        obtain ⟨rfl, he⟩ := hcases
        exact ⟨e, bound, he, houtcome⟩
    | ok tokens =>
        rw [htokens] at hunknown
        cases hunknown
  · obtain ⟨⟨outcome, bound, houtcome, hcases⟩, -⟩ :=
      htotal { listConfig with initialRule := 2 } "x" (by decide)
    cases htokens : g.lexer.source.tokenize "x" with
    | error e =>
        rw [htokens] at hproduct
        cases hproduct
    | ok tokens =>
        rw [htokens] at hcases
        have hinvalid : outcome = .error (.invalidInitialRule 2) := hcases.2
        exact ⟨bound, hinvalid ▸ houtcome⟩

end Caret
