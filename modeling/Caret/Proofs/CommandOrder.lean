import Caret.Proofs.CommandSearch

/-!
# `Caret.Proofs.CommandOrder`: a lexer rule lists its own commands in order

The commands of a lexer rule are compiled to a chain of edges behind the pattern. Each state of the
chain is new when its edge is added, so it can be entered only by the command before it
(`Network.Due`). Nothing that is added later changes this (`Network.InLine`): the edges of other
rules stay in these rules, and the last edge of the rule leads to its stop state.

A depth-first search comes to a state only behind one that leads to it. So it meets a command of the
rule after the one before it, and lists them in a row (`InLine.exists_commandsFrom_eq`).
`command_search_is_exact` puts this together with what the search does in any network.
-/

set_option autoImplicit false

namespace Caret

/-! ### Numbers in a row -/

/-- A row goes on with numbers that begin it or come next to one of its numbers. -/
theorem exists_range'_of_append {base m : Nat} {xs ys : List Nat}
    (hxs : xs.eraseDups = List.range' base m)
    (hys : ∀ k ∈ ys, k = base ∨ ∃ j ∈ xs, k = j + 1) :
    ∃ m', (xs ++ ys).eraseDups = List.range' base m' := by
  induction ys using List.reverseRecOn with
  | nil => exact ⟨m, by rw [List.append_nil, hxs]⟩
  | append_singleton ys y ih =>
      obtain ⟨m', hm'⟩ := ih fun k hk => hys k (List.mem_append_left _ hk)
      have hmem : ∀ k, k ∈ xs ++ ys ↔ base ≤ k ∧ k < base + m' := by
        intro k
        rw [← List.mem_eraseDups, hm', List.mem_range'_1]
      rw [← List.append_assoc]
      by_cases hy : y ∈ xs ++ ys
      · exact ⟨m', by rw [eraseDups_concat_of_mem hy, hm']⟩
      · -- A number that is new can only be the next one.
        have hnext : y = base + m' := by
          rw [hmem] at hy
          rcases hys y (by simp) with rfl | ⟨j, hj, rfl⟩
          · omega
          · have hrow := (hmem j).mp (List.mem_append_left ys hj)
            omega
        refine ⟨m' + 1, ?_⟩
        rw [eraseDups_concat_of_not_mem hy, hm', hnext, List.range'_1_concat]

/-- The same for numbers that are listed block by block. -/
theorem exists_range'_of_flatMap {α : Type} {base : Nat} {f : α → List Nat} (as : List α)
    (h : ∀ before a after, as = before ++ a :: after →
      ∀ k ∈ f a, k = base ∨ ∃ j ∈ before.flatMap f, k = j + 1) :
    ∃ m, (as.flatMap f).eraseDups = List.range' base m := by
  induction as using List.reverseRecOn with
  | nil => exact ⟨0, rfl⟩
  | append_singleton as a ih =>
      have hbefore : ∀ before b after, as = before ++ b :: after →
          ∀ k ∈ f b, k = base ∨ ∃ j ∈ before.flatMap f, k = j + 1 := by
        rintro before b after rfl
        exact h before b (after ++ [a]) (by simp)
      obtain ⟨m, hm⟩ := ih hbefore
      rw [List.flatMap_append, List.flatMap_singleton]
      exact exists_range'_of_append hm (h as a [] rfl)

/-! ### Commands in line -/

namespace Network

/-- Command `k` of a rule is due at a state: it is the first one and the state is the end of the
pattern, or the state can be entered by the command before it and in no other way. -/
inductive Due (n : Network) (rule : RuleIndex) (base : Nat) (exit : StateId) :
    StateId → Nat → Prop where
  | first : Due n rule base exit exit base
  | next {a : StateId} {k : Nat} : base ≤ k → n.start? rule ≠ some a →
      (∀ x s, n.state? x = some s → ∀ e ∈ s.edges, e.target = a → e = .command a k) →
        Due n rule base exit a (k + 1)

/-- Every command of the rule leaves a state where it is due. -/
def InLine (n : Network) (rule : RuleIndex) (base : Nat) (exit : StateId) : Prop :=
  ∀ a s, n.state? a = some s → s.rule = rule → ∀ b k, .command b k ∈ s.edges →
    n.Due rule base exit a k

section

variable {n m : Network} {rule rule' : RuleIndex} {base k : Nat} {exit a : StateId} {e : Edge}

/-- A state with an edge is no new one. -/
theorem state?_of_mem_addState {kind : StateKind} {s : State}
    (hs : (n.addState rule kind).state? a = some s) (he : e ∈ s.edges) : n.state? a = some s := by
  rw [state?_addState] at hs
  split at hs
  · cases hs
    cases he
  · exact hs

/-- Numbers of commands count up from the first one. -/
theorem Due.base_le (h : n.Due rule base exit a k) : base ≤ k := by
  cases h with
  | first => exact Nat.le_refl _
  | next hle => exact Nat.le_succ_of_le hle

/-- A new state has no edges, so it enters nothing. -/
theorem Due.addState (h : n.Due rule base exit a k) (rule' : RuleIndex) (kind : StateKind) :
    (n.addState rule' kind).Due rule base exit a k := by
  cases h with
  | first => exact .first
  | next hle hstart henter =>
      refine .next hle hstart fun x s hs e he => ?_
      exact henter x s (state?_of_mem_addState hs he) e he

/-- An edge to another state does not matter. -/
theorem Due.attach (h : n.Due rule base exit a k) {x : Nat} (hne : e.target ≠ a) :
    (n.attach x e).Due rule base exit a k := by
  cases h with
  | first => exact .first
  | next hle hstart henter =>
      refine .next hle hstart fun y s hs e' he' htarget => ?_
      obtain ⟨s', hs', -, hedges⟩ := exists_of_state?_attach n x e hs
      -- An edge was there before, or it is the new one, which leads elsewhere.
      rcases hedges e' he' with hold | ⟨rfl, -⟩
      · exact henter y s' hs' e' hold htarget
      · exact absurd htarget hne

/-- The start state of a new rule is none of the states there were. -/
theorem Due.addRule (h : n.Due rule base exit a k) (ha : a < n.states.size) :
    n.addRule.Due rule base exit a k := by
  cases (h.addState n.ruleCount .ruleStart).addState n.ruleCount .ruleStop with
  | first => exact .first
  | next hle hstart henter =>
      refine .next hle ?_ henter
      -- The new rule starts at a new state. All others start where they did.
      show (n.starts.push n.states.size)[rule]? ≠ some a
      rw [Array.getElem?_push]
      split
      · rintro ⟨⟩
        exact Nat.lt_irrefl _ ha
      · exact hstart

/-- Nor does it leave anything. -/
theorem InLine.addState (h : n.InLine rule base exit) (rule' : RuleIndex) (kind : StateKind) :
    (n.addState rule' kind).InLine rule base exit := by
  intro a s hs hrule b k hmem
  exact (h a s (state?_of_mem_addState hs hmem) hrule b k hmem).addState rule' kind

/-- A new rule brings two such states, and none of them is where a command leaves. -/
theorem InLine.addRule (h : n.InLine rule base exit) : n.addRule.InLine rule base exit := by
  intro a s hs hrule b k hmem
  have hold : n.state? a = some s := state?_of_mem_addState (state?_of_mem_addState hs hmem) hmem
  exact (h a s hold hrule b k hmem).addRule (state?_lt hold)

/-- An edge may lead to a state of another rule, or to one without commands. If it is a command of
the rule itself, it has to be due. -/
theorem InLine.attach (h : n.InLine rule base exit) {x : Nat}
    (htarget : ∀ s, n.state? e.target = some s → s.rule = rule → ∀ b k, .command b k ∉ s.edges)
    (hcommand : ∀ s, n.state? x = some s → s.rule = rule → ∀ b k, e = .command b k →
      e.target ≠ x ∧ n.Due rule base exit x k) :
    (n.attach x e).InLine rule base exit := by
  intro a s hs hrule b k hmem
  -- Commands of before stay in line, because the new edge does not lead to where they leave.
  have hold : ∀ s, n.state? a = some s → s.rule = rule → .command b k ∈ s.edges →
      (n.attach x e).Due rule base exit a k := by
    intro s hs hrule hmem
    refine (h a s hs hrule b k hmem).attach ?_
    rintro rfl
    exact htarget s hs hrule b k hmem
  rw [state?_attach] at hs
  split at hs
  · rename_i hx
    subst hx
    obtain ⟨s', hs', rfl⟩ := Option.map_eq_some_iff.mp hs
    rcases List.mem_append.mp hmem with hmem | hmem
    · exact hold s' hs' hrule hmem
    · obtain ⟨hne, hdue⟩ := hcommand s' hs' hrule b k (List.mem_singleton.mp hmem).symm
      exact hdue.attach hne
  · exact hold s hs hrule hmem

/-- A step of another rule does not matter. -/
theorem RuleStep.inLine {P : Edge → Prop} (hstep : RuleStep rule' P n m) (hne : rule' ≠ rule)
    (h : n.InLine rule base exit) : m.InLine rule base exit := by
  cases hstep with
  | state => exact h.addState rule' _
  | @edge x e hx hcall htarget _ =>
      rw [addEdge_eq_attach hcall]
      refine h.attach (fun s hs hrule => ?_) fun s hs hrule => ?_
      · exact absurd (Belongs.unique htarget ⟨s, hs, hrule⟩) hne
      · exact absurd (Belongs.unique hx.belongs ⟨s, hs, hrule⟩) hne

/-- The same for any number of steps. -/
theorem RuleSteps.inLine {P : Edge → Prop} (hsteps : RuleSteps rule' P n m) (hne : rule' ≠ rule)
    (h : n.InLine rule base exit) : m.InLine rule base exit := by
  induction hsteps with
  | refl => exact h
  | tail _ hstep ih => exact hstep.inLine hne ih

/-- Without calls every edge leads to a state. -/
theorem Owned.target_lt {P : RuleIndex → Edge → Prop} (h : n.Owned P) (hsealed : n.Sealed)
    (hP : ∀ r e, P r e → e.isCall = false) {s : State} (hs : n.state? a = some s)
    (he : e ∈ s.edges) : e.target < n.states.size := by
  obtain ⟨hkeeps, hedge⟩ := h.edges a s hs (hsealed.kind_ne hs he) e he
  have hcall := hP _ _ hedge
  cases e with
  | call => cases hcall
  | _ =>
      obtain ⟨t, ht, -⟩ := hkeeps
      exact state?_lt ht

/-- A command is added where it is due. Then the next one is due at the new state. -/
theorem InLine.command (h : n.InLine rule base exit) (hn : n.Owned fun _ e => e.isCall = false)
    (hsealed : n.Sealed) (ha : n.Inside rule a) (hdue : n.Due rule base exit a k) :
    ((n.addState rule .basic).addEdge a (.command n.nextId k)).InLine rule base exit ∧
      ((n.addState rule .basic).addEdge a (.command n.nextId k)).Due rule base exit n.nextId
        (k + 1) := by
  obtain ⟨source, hsource, -⟩ := ha
  have hlt := state?_lt hsource
  rw [addEdge_eq_attach rfl]
  constructor
  · refine (h.addState rule .basic).attach (fun s hs _ b _ hmem => ?_) ?_
    · exact Nat.lt_irrefl _ (state?_lt (state?_of_mem_addState hs hmem))
    · rintro s hs hrule b _ ⟨⟩
      exact ⟨Nat.ne_of_gt hlt, hdue.addState rule .basic⟩
  · -- The new state is entered by the command. It is no start state, since those were there before.
    refine .next hdue.base_le (fun hstart => ?_) fun x s hs e he htarget => ?_
    · obtain ⟨t, ht, -⟩ := hn.start rule _ hstart
      exact Nat.lt_irrefl _ (state?_lt ht)
    · obtain ⟨s', hs', -, hedges⟩ := exists_of_state?_attach _ a _ hs
      rcases hedges e he with hold | ⟨rfl, -⟩
      · -- No edge of before leads to the new state.
        have hbound := hn.target_lt hsealed (fun _ _ => id) (state?_of_mem_addState hs' hold) hold
        rw [htarget] at hbound
        exact absurd hbound (Nat.lt_irrefl _)
      · rfl

/-- The first command leaves the end of the pattern. -/
theorem InLine.eq_exit (h : n.InLine rule base exit) {s : State} (hs : n.state? a = some s)
    (hrule : s.rule = rule) {b : StateId} (hmem : .command b base ∈ s.edges) : a = exit := by
  generalize hk : base = k at hmem
  cases h a s hs hrule b k hmem with
  | first => rfl
  | next hle => omega

/-- Where the commands of a rule are in line, the search lists them in a row. -/
theorem InLine.exists_commandsFrom_eq {P : RuleIndex → Edge → Prop} {start : StateId}
    (h : n.InLine rule base exit) (hn : n.Owned P) (hP : ∀ r e, P r e → e.isCall = false)
    (hstart : n.start? rule = some start) : ∃ m, n.commandsFrom start = List.range' base m := by
  refine exists_range'_of_flatMap (f := n.commandsAt) (n.reach State.inRule [start]) ?_
  intro before a after hreach k hk
  obtain ⟨s, hs, hkind, b, hmem⟩ := mem_commandsAt_iff.mp hk
  have ha : a ∈ n.reach State.inRule [start] := by simp [hreach]
  obtain ⟨-, r, hr, hleads⟩ := (n.mem_reach_iff State.inRule [start] a).mp ha
  obtain rfl := List.mem_singleton.mp hr
  have hrule := hn.rule_of_leads hstart hleads hs
  cases h a s hs hrule b k hmem with
  | first => exact Or.inl rfl
  | @next _ j _ hne henter =>
      -- The search does not start here, so the state was entered, and by the command before.
      rcases mem_or_exists_of_depthFirst_eq hreach with hroot | ⟨y, hy, hnext⟩
      · rw [List.mem_singleton.mp hroot] at hne
        exact absurd hstart hne
      · refine Or.inr ⟨j, List.mem_flatMap.mpr ⟨y, hy, ?_⟩, rfl⟩
        cases mem_onwardFrom_iff.mp hnext with
        | call hs' hkind' he =>
            exact absurd (hP _ _ (hn.edges _ _ hs' hkind' _ he).2) Bool.noConfusion
        | @edge s' e hs' hkind' he =>
            rw [henter y s' hs' e he rfl] at he
            exact mem_commandsAt_iff.mpr ⟨s', hs', hkind', _, he⟩

end

end Network

/-! ### The network of a lexer -/

open Network Growth

/-- Commands that are added one after the other, from where the first of them is due, are in
line. -/
theorem Growth.inLine_runCommands {rule : RuleIndex} {base : Nat} {exit : StateId}
    (cs : List Command) {k : Nat} {n : Network} {a : StateId} (h : n.InLine rule base exit)
    (hn : n.Owned fun _ e => e.isCall = false) (hsealed : n.Sealed) (ha : n.Inside rule a)
    (hdue : n.Due rule base exit a k) :
    (Growth.runCommands rule cs k ⟨n, a⟩).network.InLine rule base exit := by
  induction cs generalizing n a k with
  | nil => exact h
  | cons c cs ih =>
      have hstays : Stays rule (fun e => e.isCall = false) _ := .command (i := k) fun _ => rfl
      obtain ⟨hsteps, hexit⟩ := hstays n a ha
      obtain ⟨hline, hnext⟩ := h.command hn hsealed ha hdue
      exact ih hline (hsteps.owned hn fun _ he => he) (hsteps.sealed hsealed) hexit hnext

/-- No calls, and no commands in one of the rules. -/
def Spares (rule i : RuleIndex) (e : Edge) : Prop :=
  e.isCall = false ∧ (i = rule → ∀ b k, e ≠ .command b k)

/-- A rule without commands has them in line. -/
theorem Network.Owned.inLine_of_spares {n : Network} {rule : RuleIndex} (h : n.Owned (Spares rule))
    (hsealed : n.Sealed) (base : Nat) (exit : StateId) : n.InLine rule base exit := by
  intro a s hs hrule b k hmem
  exact absurd rfl ((h.edges a s hs (hsealed.kind_ne hs hmem) _ hmem).2.2 hrule b k)

namespace LexerNetwork

variable {l : LexerNetwork} {rules : List LexerRule} {i : RuleIndex} {r : LexerRule}
  {start : StateId}

namespace Implements

/-- There are no commands of a rule that is still to come. -/
theorem owned_spares (h : l.Implements rules) :
    l.network.Owned (Spares l.network.ruleCount) := by
  refine h.owned.mono fun i e he => ⟨he.isCall_eq_false, ?_⟩
  rintro rfl b k rfl
  obtain ⟨r, -, hr, -⟩ := he
  have hlt := (List.getElem?_eq_some_iff.mp hr).1
  rw [← h.starts_size] at hlt
  exact Nat.lt_irrefl _ hlt

/-- The commands of a new rule are in line behind its pattern. -/
theorem inLine_addRule (h : l.Implements rules) (r : LexerRule) :
    (l.addRule r).network.InLine l.network.ruleCount l.commands.size (l.patternEnd r) := by
  have hspares := owned_addRule h.owned_spares (h.stops_size.trans h.starts_size.symm)
  have hsealed := sealed_addRule h.sealed
  obtain ⟨n, tokenTypes, commands⟩ := l
  have hstop : n.addRule.state? (n.states.size + 1) =
      some ⟨n.states.size + 1, n.ruleCount, .ruleStop, []⟩ := by rw [state?_addRule, if_pos rfl]
  -- The pattern adds no commands, and the first one is due where it ends.
  obtain ⟨hpattern, hend⟩ := r.pattern.compile_stays (P := Spares n.ruleCount n.ruleCount)
    (fun _ => ⟨rfl, fun _ _ _ => Edge.noConfusion⟩)
    (fun _ _ => ⟨rfl, fun _ _ _ => Edge.noConfusion⟩) n.addRule n.states.size n.inside_addRule
  have hspares' := hpattern.owned hspares fun _ he => he
  have hsealed' := hpattern.sealed hsealed
  have hchain := inLine_runCommands (k := commands.size) r.commands
    (hspares'.inLine_of_spares hsealed' commands.size _) (hspares'.mono fun _ _ he => he.1) hsealed'
    hend .first
  -- The edge behind the last command leads to the stop state, which has no edges.
  obtain ⟨hcommands, -⟩ := Stays.runCommands (P := fun _ => True) (i := commands.size) r.commands
    (fun _ _ _ _ => trivial) _ _ hend
  refine hchain.attach (fun s hs _ b k hmem => ?_) fun _ _ _ _ _ => Edge.noConfusion
  obtain ⟨s', hs', -, hkind, -⟩ := (hpattern.includes.trans hcommands.includes) _ _ hstop
  cases hs'.symm.trans hs
  exact (hcommands.sealed hsealed').kind_ne hs hmem hkind

/-- In a lexer the search goes along every edge. -/
theorem leadsAlong_eq (h : l.Implements rules) :
    l.network.LeadsAlong State.inRule = l.network.LeadsAlong fun s => s.edges.map Edge.target := by
  funext a b
  refine propext ⟨fun hleads => ?_, ?_⟩
  · cases leadsAlong_inRule_iff.mp hleads with
    | call hs hkind he => exact (h.owned.edges _ _ hs hkind _ he).2.elim
    | edge hs _ he _ => exact ⟨_, hs, List.mem_map_of_mem he⟩
  · rintro ⟨s, hs, hmem⟩
    obtain ⟨e, he, rfl⟩ := List.mem_map.mp hmem
    exact h.leadsAlong hs he

/-- The table has the commands of a rule under their numbers. -/
theorem map_commands_range' (h : l.Implements rules) (hr : rules[i]? = some r) :
    (List.range' (commandBase rules i) r.commands.length).map (l.commands[·]?) =
      r.commands.map some := by
  refine List.ext_getElem (by simp) fun j hj _ => ?_
  have hlt : j < r.commands.length := by simpa using hj
  have hlookup := getElem?_flatMap_commands hr hlt
  rw [← h.commands_eq, Array.getElem?_toList, List.getElem?_eq_getElem hlt] at hlookup
  simpa using hlookup

end Implements

/-- In the network of a lexer, the commands of each rule follow each other from the end of its
pattern on, and they are in line. -/
theorem ofRules_inLine (rules : List LexerRule) {i : RuleIndex} {r : LexerRule}
    (hr : rules[i]? = some r) :
    (ofRules rules).network.InLine i (commandBase rules i)
        ((ofRules (rules.take i)).patternEnd r) ∧
      (ofRules rules).network.CommandChain (commandBase rules i) r.commands.length
        ((ofRules (rules.take i)).patternEnd r) := by
  induction rules using List.reverseRecOn with
  | nil => cases hr
  | append_singleton rules last ih =>
      have himplements := ofRules_implements rules
      have hcount : (ofRules rules).network.ruleCount = rules.length := himplements.starts_size
      obtain ⟨hsteps, -, hchain⟩ := addRule_steps (l := ofRules rules) (r := last)
        (P := fun _ => True) (fun _ => trivial) (fun _ _ => trivial) fun _ _ _ _ => trivial
      rw [show ofRules (rules ++ [last]) = (ofRules rules).addRule last from List.foldl_concat ..]
      rcases Nat.lt_or_ge i rules.length with hi | hi
      · -- A rule of before is not touched.
        rw [List.getElem?_append_left hi] at hr
        rw [commandBase_append (Nat.le_of_lt hi), List.take_append_of_le_length (Nat.le_of_lt hi)]
        obtain ⟨hline, hchain'⟩ := ih hr
        exact ⟨hsteps.inLine (hcount ▸ Nat.ne_of_gt hi) hline.addRule,
          ((includes_addRule _).trans hsteps.includes).commandChain hchain'⟩
      · have hlen := (List.getElem?_eq_some_iff.mp hr).1
        rw [List.length_append, List.length_singleton] at hlen
        obtain rfl : i = rules.length := Nat.le_antisymm (Nat.le_of_lt_succ hlen) hi
        obtain rfl : last = r := by simpa using hr
        rw [himplements.commandBase_length, List.take_left]
        exact ⟨hcount ▸ himplements.inLine_addRule last, hchain⟩

/-! ### The commands of a rule -/

/-- What the search lists from the start of a rule whose pattern ends at `exit` and whose commands
are numbered from `base` on. -/
structure ListsCommands (l : LexerNetwork) (start exit : StateId) (base : Nat)
    (commands : List Command) : Prop where
  /-- If the edges lead to the end of the pattern, all commands in the order of the rule. -/
  all : Relation.ReflTransGen (l.network.LeadsAlong fun s => s.edges.map Edge.target) start exit →
    l.network.commandsFrom start = List.range' base commands.length
  /-- If they do not, none of them. -/
  none : ¬ Relation.ReflTransGen (l.network.LeadsAlong fun s => s.edges.map Edge.target) start
    exit → l.network.commandsFrom start = []
  /-- These are the numbers of the commands in the table. -/
  table : (List.range' base commands.length).map (l.commands[·]?) = commands.map some

/-- From the start of a rule the search lists a row of numbers that begins with its first command.
Whether there are any depends on whether the end of the pattern can be reached. -/
theorem ofRules_listsCommands (hr : rules[i]? = some r)
    (hstart : (ofRules rules).network.start? i = some start) :
    (ofRules rules).ListsCommands start ((ofRules (rules.take i)).patternEnd r)
      (commandBase rules i) r.commands := by
  have himplements := ofRules_implements rules
  obtain ⟨hline, hchain⟩ := ofRules_inLine rules hr
  obtain ⟨m, hm⟩ := hline.exists_commandsFrom_eq himplements.owned
    (fun _ _ he => Allows.isCall_eq_false he) hstart
  refine ⟨fun hreach => ?_, fun hnot => ?_, himplements.map_commands_range' hr⟩
  · rw [← himplements.leadsAlong_eq] at hreach
    -- The row has all commands of the rule, and no others.
    have hge : r.commands.length ≤ m := by
      by_contra hlt
      have hmem := himplements.mem_commandsFrom_of_chain hreach hchain (Nat.lt_of_not_le hlt)
      rw [hm, List.mem_range'_1] at hmem
      omega
    have hle : m ≤ r.commands.length := by
      by_contra hlt
      have hmem : commandBase rules i + r.commands.length ∈
          (ofRules rules).network.commandsFrom start := by
        rw [hm, List.mem_range'_1]
        omega
      obtain ⟨j, hj, heq⟩ := himplements.exists_of_mem_commandsFrom hr hstart hmem
      omega
    rw [hm, Nat.le_antisymm hle hge]
  · cases m with
    | zero => exact hm
    | succ m =>
        -- A row that is not empty has the first command, which leaves the end of the pattern.
        have hmem : commandBase rules i ∈ (ofRules rules).network.commandsFrom start := by
          rw [hm]
          exact List.mem_cons_self
        obtain ⟨a, s, b, hleads, hs, -, hcommand⟩ :=
          ((ofRules rules).network.mem_commandsFrom_iff start _).mp hmem
        have hrule := himplements.owned.rule_of_leads hstart hleads hs
        rw [hline.eq_exit hs hrule hcommand, himplements.leadsAlong_eq] at hleads
        exact absurd hleads hnot

end LexerNetwork

/-- In any network and from any number, the search for commands ends and finds each command that can
be reached once. From the start of a lexer rule whose pattern can be passed, it lists the commands
of the rule and no others, in their order. -/
theorem command_search_is_exact :
    (∀ (n : Network) (a : StateId), n.SearchesFrom a) ∧
      ∀ (rules : List LexerRule) (i : RuleIndex) (r : LexerRule), rules[i]? = some r →
        ∃ start, (Lexer.ofRules rules).network.network.start? i = some start ∧
          (Lexer.ofRules rules).network.ListsCommands start
            ((LexerNetwork.ofRules (rules.take i)).patternEnd r) (commandBase rules i)
            r.commands := by
  refine ⟨searchesFrom, fun rules i r hr => ?_⟩
  obtain ⟨start, -, hstart, -⟩ := (LexerNetwork.ofRules_implements rules).rule i r hr
  exact ⟨start, hstart, LexerNetwork.ofRules_listsCommands hr hstart⟩

/-- A note runs three commands behind a choice and a loop. -/
def markNote : LexerRule :=
  ⟨"NOTE", .seq [.literal "#", .alt [.literal "a", .zeroOrMore .any], .optional (.literal "!")],
    [.type 1, .channel 1, .popMode]⟩

/-- A rule that cannot match. -/
def markNever : LexerRule := ⟨"NEVER", .alt [], [.skip]⟩

/-- Words, notes, and the rule that cannot match. -/
def markRules : List LexerRule :=
  [⟨"WORD", .oneOrMore (.oneOf .letters), [.mode 3]⟩, markNote, markNever]

/-- Edges lead from the start of a note, state 8, to the end of its pattern, state 22, and the
commands of notes are listed behind that of words. No edges lead to the end of the last pattern. -/
theorem mark_commands_are_listed :
    (Relation.ReflTransGen ((Lexer.ofRules markRules).network.network.LeadsAlong
          fun s => s.edges.map Edge.target) 8 22 ∧
        (Lexer.ofRules markRules).network.network.commandsFrom 8 = [1, 2, 3]) ∧
      ¬ Relation.ReflTransGen ((Lexer.ofRules markRules).network.network.LeadsAlong
          fun s => s.edges.map Edge.target) 27 30 ∧
        (Lexer.ofRules markRules).network.network.commandsFrom 27 = [] := by
  obtain ⟨start, hstart, hlists⟩ := command_search_is_exact.2 markRules 1 markNote rfl
  obtain ⟨start', hstart', hlists'⟩ := command_search_is_exact.2 markRules 2 markNever rfl
  have heval : (Lexer.ofRules markRules).network.network.start? 1 = some 8 ∧
      (LexerNetwork.ofRules (markRules.take 1)).patternEnd markNote = 22 ∧
      commandBase markRules 1 = 1 ∧
      (Lexer.ofRules markRules).network.network.start? 2 = some 27 ∧
      (LexerNetwork.ofRules (markRules.take 2)).patternEnd markNever = 30 ∧
      ((Lexer.ofRules markRules).network.network.reach (fun s => s.edges.map Edge.target)
        [8]).contains 22 = true ∧
      ((Lexer.ofRules markRules).network.network.reach (fun s => s.edges.map Edge.target)
        [27]).contains 30 = false ∧
      30 < (Lexer.ofRules markRules).network.network.states.size := by cbv
  obtain ⟨hnote, hend, hbase, hnever, hend', hfound, hlost, hlt⟩ := heval
  cases hnote.symm.trans hstart
  cases hnever.symm.trans hstart'
  rw [hend, hbase] at hlists
  rw [hend'] at hlists'
  have hreach : Relation.ReflTransGen ((Lexer.ofRules markRules).network.network.LeadsAlong
      fun s => s.edges.map Edge.target) 8 22 := by
    obtain ⟨-, a, ha, hleads⟩ := (mem_reach_iff _ _ _ _).mp (List.contains_iff_mem.mp hfound)
    rwa [List.mem_singleton.mp ha] at hleads
  have hnot : ¬ Relation.ReflTransGen ((Lexer.ofRules markRules).network.network.LeadsAlong
      fun s => s.edges.map Edge.target) 27 30 := by
    intro hleads
    have hmem := List.contains_iff_mem.mpr
      ((mem_reach_iff _ _ [27] 30).mpr ⟨hlt, 27, List.mem_singleton_self 27, hleads⟩)
    rw [hlost] at hmem
    cases hmem
  exact ⟨⟨hreach, hlists.all hreach⟩, hnot, hlists'.none hnot⟩

end Caret
