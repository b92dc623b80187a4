import Caret.Proofs.MaximalMunch
import Caret.Proofs.Ownership

/-!
# `Caret.Proofs.LexerRules`: the part of a lexer network that belongs to a rule

A lexer rule is compiled by adding states of the rule and edges between them. `Network.RuleStep`
says what one such step can do, and `Pattern.compile_stays` that a pattern is compiled in such
steps. Whatever a step keeps is kept by all of them:

* nothing is lost (`Network.Includes`), so a way through a network is a way through every later one;
* an edge stays in its rule (`Network.Owned`), and is one of those that the steps were allowed to
  add;
* a stop state gets no edges (`Network.Sealed`).

`LexerNetwork.Implements` collects this for a list of rules, together with the chain of commands
that leaves the end of each pattern. `Implements.mem_commandsFrom_iff` draws the conclusion about
the search for the commands of a rule: if the rule can match at all, the search finds the commands
of this rule and no others.
-/

set_option autoImplicit false

namespace Caret

namespace Network

/-! ### Steps -/

/-- The state belongs to the rule and does not end it. -/
def Inside (n : Network) (rule : RuleIndex) (a : Nat) : Prop :=
  ∃ s, n.state? a = some s ∧ s.rule = rule ∧ s.kind ≠ .ruleStop

/-- A step in the construction of a rule without calls. It adds a state, or an edge with the
property `P` between states of the rule. -/
inductive RuleStep (rule : RuleIndex) (P : Edge → Prop) : Network → Network → Prop where
  | state {n : Network} {kind : StateKind} :
      kind ≠ .ruleStop → RuleStep rule P n (n.addState rule kind)
  | edge {n : Network} {a : Nat} {e : Edge} : n.Inside rule a → e.isCall = false →
      n.Belongs rule e.target → P e → RuleStep rule P n (n.addEdge a e)

/-- Any number of steps. -/
abbrev RuleSteps (rule : RuleIndex) (P : Edge → Prop) : Network → Network → Prop :=
  Relation.ReflTransGen (RuleStep rule P)

/-- The states of `n` are states of `m`, and have all the edges that they had. -/
def Includes (n m : Network) : Prop :=
  ∀ a s, n.state? a = some s →
    ∃ s', m.state? a = some s' ∧ s'.rule = s.rule ∧ s'.kind = s.kind ∧ ∀ e ∈ s.edges, e ∈ s'.edges

/-- No edge leaves a stop state. -/
def Sealed (n : Network) : Prop :=
  ∀ a s, n.state? a = some s → s.kind = .ruleStop → s.edges = []

section

variable {n m k : Network} {rule : RuleIndex} {P : Edge → Prop} {a b : Nat}

/-- In a sealed network a state with an edge is no stop state. -/
theorem Sealed.kind_ne (h : n.Sealed) {s : State} (hs : n.state? a = some s) {e : Edge}
    (he : e ∈ s.edges) : s.kind ≠ .ruleStop := by
  intro hstop
  rw [h a s hs hstop] at he
  cases he

/-- What is inside a rule belongs to it. -/
theorem Inside.belongs (h : n.Inside rule a) : n.Belongs rule a := by
  obtain ⟨s, hs, hrule, -⟩ := h
  exact ⟨s, hs, hrule⟩

/-- A new state of the rule is inside it. -/
theorem inside_addState {kind : StateKind} (hkind : kind ≠ .ruleStop) :
    (n.addState rule kind).Inside rule n.states.size :=
  ⟨_, by rw [state?_addState, if_pos rfl], rfl, hkind⟩

namespace Includes

/-- A network includes itself. -/
theorem refl (n : Network) : n.Includes n := fun _ s hs => ⟨s, hs, rfl, rfl, fun _ he => he⟩

/-- What a later network includes is included in an even later one. -/
theorem trans (h : n.Includes m) (h' : m.Includes k) : n.Includes k := by
  intro a s hs
  obtain ⟨s', hs', hrule, hkind, hedges⟩ := h a s hs
  obtain ⟨s'', hs'', hrule', hkind', hedges'⟩ := h' a s' hs'
  exact ⟨s'', hs'', hrule'.trans hrule, hkind'.trans hkind, fun e he => hedges' e (hedges e he)⟩

/-- States inside a rule stay inside it. -/
theorem inside (h : n.Includes m) (ha : n.Inside rule a) : m.Inside rule a := by
  obtain ⟨s, hs, hrule, hkind⟩ := ha
  obtain ⟨s', hs', hrule', hkind', -⟩ := h a s hs
  exact ⟨s', hs', hrule'.trans hrule, hkind' ▸ hkind⟩

/-- States of a rule stay its states. -/
theorem belongs (h : n.Includes m) (ha : n.Belongs rule a) : m.Belongs rule a := by
  obtain ⟨s, hs, hrule⟩ := ha
  obtain ⟨s', hs', hrule', -⟩ := h a s hs
  exact ⟨s', hs', hrule'.trans hrule⟩

/-- A way stays a way. -/
theorem path (h : n.Includes m) {l : Nat} {w : List Char} (hpath : n.Path l a w b) :
    m.Path l a w b := by
  -- Each edge of the way is still there.
  induction hpath with
  | refl a => exact .refl a
  | move hmove _ ih =>
      obtain ⟨s, hs, e, he, hepsilon⟩ := hmove
      obtain ⟨s', hs', -, -, hedges⟩ := h _ s hs
      exact .move ⟨s', hs', e, hedges e he, hepsilon⟩ ih
  | take htake _ ih =>
      obtain ⟨s, hs, e, he, hadmits⟩ := htake
      obtain ⟨s', hs', -, -, hedges⟩ := h _ s hs
      exact .take ⟨s', hs', e, hedges e he, hadmits⟩ ih

end Includes

/-- A new state takes nothing away. -/
theorem includes_addState (n : Network) (rule : RuleIndex) (kind : StateKind) :
    n.Includes (n.addState rule kind) := by
  intro a s hs
  refine ⟨s, ?_, rfl, rfl, fun _ he => he⟩
  rw [state?_addState, if_neg (Nat.ne_of_lt (state?_lt hs)), hs]

/-- Nor does a new edge. -/
theorem includes_attach (n : Network) (a : Nat) (e : Edge) : n.Includes (n.attach a e) := by
  intro b s hs
  rw [state?_attach, hs]
  split
  · exact ⟨_, rfl, rfl, rfl, fun _ he => List.mem_append_left _ he⟩
  · exact ⟨s, rfl, rfl, rfl, fun _ he => he⟩

/-- Nor does a new rule, whose two states are new. -/
theorem includes_addRule (n : Network) : n.Includes n.addRule := by
  intro a s hs
  have hlt := state?_lt hs
  refine ⟨s, ?_, rfl, rfl, fun _ he => he⟩
  rw [state?_addRule, if_neg (by omega), if_neg (by omega), hs]

/-! ### What a step keeps -/

/-- A step loses nothing. -/
theorem RuleStep.includes (h : RuleStep rule P n m) : n.Includes m := by
  cases h with
  | state => exact includes_addState n rule _
  | edge _ hcall _ _ =>
      rw [addEdge_eq_attach hcall]
      exact includes_attach n _ _

/-- A step keeps every edge in its rule, and adds only what it was allowed to add. -/
theorem RuleStep.owned {Q : RuleIndex → Edge → Prop} (h : RuleStep rule P n m) (hn : n.Owned Q)
    (hPQ : ∀ e, P e → Q rule e) : m.Owned Q := by
  cases h with
  | state => exact (extends_addState hn rule _).owned
  | @edge a e ha hcall htarget hP =>
      have hkeeps : n.Keeps rule e := by
        cases e with
        | call target callee follow level => cases hcall
        | _ => exact htarget
      exact (extends_addEdge hn ha.belongs hkeeps (hPQ e hP)).owned

/-- A step gives no edge to a stop state. -/
theorem RuleStep.sealed (h : RuleStep rule P n m) (hn : n.Sealed) : m.Sealed := by
  intro b s hs hkind
  cases h with
  | state hnew =>
      rw [state?_addState] at hs
      split at hs
      · cases hs
        rfl
      · exact hn b s hs hkind
  | @edge a e ha hcall _ _ =>
      rw [addEdge_eq_attach hcall, state?_attach] at hs
      split at hs
      · -- The source of the edge is no stop state.
        rename_i heq
        obtain ⟨s', hs', rfl⟩ := Option.map_eq_some_iff.mp hs
        obtain ⟨s'', hs'', -, hne⟩ := ha
        cases (heq ▸ hs'').symm.trans hs'
        exact absurd hkind hne
      · exact hn b s hs hkind

/-- An edge that reads nothing. -/
theorem RuleStep.epsilon (hP : ∀ t, P (.epsilon t)) (ha : n.Inside rule a) (hb : n.Belongs rule b) :
    RuleStep rule P n (n.addEdge a (.epsilon b)) :=
  .edge ha rfl hb (hP b)

/-- A step adds no rule. -/
theorem RuleStep.starts_eq (h : RuleStep rule P n m) : m.starts = n.starts ∧ m.stops = n.stops := by
  cases h with
  | state => exact ⟨rfl, rfl⟩
  | edge _ hcall _ _ =>
      rw [addEdge_eq_attach hcall]
      exact ⟨rfl, rfl⟩

namespace RuleSteps

/-- Nothing is lost by any number of steps. -/
theorem includes (h : RuleSteps rule P n m) : n.Includes m := by
  induction h with
  | refl => exact .refl n
  | tail _ hstep ih => exact ih.trans hstep.includes

/-- Steps of a rule may be taken in the network of all rules, if what they add is allowed there. -/
theorem owned {Q : RuleIndex → Edge → Prop} (h : RuleSteps rule P n m) (hn : n.Owned Q)
    (hPQ : ∀ e, P e → Q rule e) : m.Owned Q := by
  induction h with
  | refl => exact hn
  | tail _ hstep ih => exact hstep.owned ih hPQ

/-- Stop states stay without edges. -/
theorem sealed (h : RuleSteps rule P n m) (hn : n.Sealed) : m.Sealed := by
  induction h with
  | refl => exact hn
  | tail _ hstep ih => exact hstep.sealed ih

/-- The rules stay the same. -/
theorem starts_eq (h : RuleSteps rule P n m) : m.starts = n.starts ∧ m.stops = n.stops := by
  induction h with
  | refl => exact ⟨rfl, rfl⟩
  | tail _ hstep ih => exact ⟨hstep.starts_eq.1.trans ih.1, hstep.starts_eq.2.trans ih.2⟩

end RuleSteps

end

end Network

/-! ### Pieces of a rule -/

/-- Growing from a state inside the rule takes steps of the rule, and ends inside the rule. -/
def Growth.Stays (rule : RuleIndex) (P : Edge → Prop) (f : Growth → Growth) : Prop :=
  ∀ (n : Network) (a : Nat), n.Inside rule a →
    Network.RuleSteps rule P n (f ⟨n, a⟩).network ∧ (f ⟨n, a⟩).network.Inside rule (f ⟨n, a⟩).exit

namespace Growth

open Network

section

variable {rule : RuleIndex} {P : Edge → Prop} {f h : Growth → Growth}

namespace Stays

/-- Adding nothing stays in the rule. -/
theorem nil : Stays rule P fun g => g := fun _ _ ha => ⟨.refl, ha⟩

/-- So do two pieces one after the other. -/
theorem comp (hf : Stays rule P f) (hh : Stays rule P h) : Stays rule P fun g => h (f g) := by
  intro n a ha
  obtain ⟨hsteps, hexit⟩ := hf n a ha
  obtain ⟨hsteps', hexit'⟩ := hh _ _ hexit
  exact ⟨hsteps.trans hsteps', hexit'⟩

/-- So does any number of copies. -/
theorem pow (hf : Stays rule P f) (k : Nat) : Stays rule P (Nat.repeat f k) := by
  induction k with
  | zero => exact nil
  | succ k ih => exact ih.comp hf

/-- A new state behind one edge. -/
theorem edge {kind : StateKind} (hkind : kind ≠ .ruleStop) {e : StateId → Edge}
    (hcall : ∀ t, (e t).isCall = false) (htarget : ∀ t, (e t).target = t) (hP : ∀ t, P (e t)) :
    Stays rule P fun g => ⟨(g.network.addState rule kind).addEdge g.exit (e g.network.nextId),
      g.network.nextId⟩ := by
  intro n a ha
  have hstate : RuleStep rule P n (n.addState rule kind) := .state hkind
  have hnew : (n.addState rule kind).Inside rule n.states.size := inside_addState hkind
  have hedge : RuleStep rule P (n.addState rule kind)
      ((n.addState rule kind).addEdge a (e n.states.size)) :=
    .edge (hstate.includes.inside ha) (hcall _) ((htarget _).symm ▸ hnew.belongs) (hP _)
  exact ⟨.tail (.single hstate) hedge, hedge.includes.inside hnew⟩

end Stays

/-- The states around a body belong to the rule. -/
theorem fork_steps (hP : ∀ t, P (.epsilon t)) {n : Network} {a : Nat} (ha : n.Inside rule a) :
    RuleSteps rule P n (fork rule n a) ∧ (fork rule n a).Inside rule n.states.size ∧
      (fork rule n a).Inside rule (n.states.size + 1) ∧
      (fork rule n a).Inside rule (n.states.size + 2) := by
  have hbasic : StateKind.basic ≠ .ruleStop := by decide
  have hdecision : StateKind.decision ≠ .ruleStop := by decide
  have hstates : RuleSteps rule P n
      (((n.addState rule .decision).addState rule .basic).addState rule .basic) :=
    .tail (.tail (.single (.state hdecision)) (.state hbasic)) (.state hbasic)
  -- The three states, before any edge.
  have hone : (((n.addState rule .decision).addState rule .basic).addState rule .basic).Inside rule
      n.states.size :=
    (includes_addState _ _ _).inside ((includes_addState _ _ _).inside (inside_addState hdecision))
  have htwo : (((n.addState rule .decision).addState rule .basic).addState rule .basic).Inside rule
      (n.states.size + 1) := by
    have h : ((n.addState rule .decision).addState rule .basic).Inside rule
        (n.addState rule .decision).states.size := inside_addState hbasic
    rw [size_addState] at h
    exact (includes_addState _ _ _).inside h
  have hthree : (((n.addState rule .decision).addState rule .basic).addState rule .basic).Inside
      rule (n.states.size + 2) := by
    have h : (((n.addState rule .decision).addState rule .basic).addState rule .basic).Inside rule
        ((n.addState rule .decision).addState rule .basic).states.size := inside_addState hbasic
    rwa [size_addState, size_addState] at h
  -- The edges keep them where they are.
  have hentry := RuleStep.epsilon hP (hstates.includes.inside ha) hone.belongs
  have hin := RuleStep.epsilon hP (hentry.includes.inside hone)
    (hentry.includes.belongs htwo.belongs)
  have hkept := hentry.includes.trans hin.includes
  have hout := RuleStep.epsilon hP (hkept.inside hone) (hkept.belongs hthree.belongs)
  have hall := hkept.trans hout.includes
  exact ⟨((hstates.tail hentry).tail hin).tail hout, hall.inside hone, hall.inside htwo,
    hall.inside hthree⟩

/-- A body between the states of a fork, with an edge from its end to one of them. -/
theorem Stays.detour (hP : ∀ t, P (.epsilon t)) {body : Growth → Growth} (hbody : Stays rule P body)
    {n : Network} {a back : Nat} (ha : n.Inside rule a)
    (hback : back = n.states.size ∨ back = n.states.size + 2) :
    RuleSteps rule P n ((body ⟨fork rule n a, n.states.size + 1⟩).network.addEdge
        (body ⟨fork rule n a, n.states.size + 1⟩).exit (.epsilon back)) ∧
      ((body ⟨fork rule n a, n.states.size + 1⟩).network.addEdge
        (body ⟨fork rule n a, n.states.size + 1⟩).exit (.epsilon back)).Inside rule
          (n.states.size + 2) := by
  obtain ⟨hfork, hone, htwo, hthree⟩ := fork_steps hP ha
  -- The body stays inside the rule, and the states of the fork are still there when it is done.
  obtain ⟨hinside, hexit⟩ := hbody _ _ htwo
  have htarget : (fork rule n a).Belongs rule back := by
    rcases hback with rfl | rfl
    · exact hone.belongs
    · exact hthree.belongs
  have hround := RuleStep.epsilon hP hexit (hinside.includes.belongs htarget)
  exact ⟨(hfork.trans hinside).tail hround,
    (hinside.includes.trans hround.includes).inside hthree⟩

/-- A loop goes from the end of the body back to the decision. -/
theorem Stays.loop (hP : ∀ t, P (.epsilon t)) {body : Growth → Growth} (hbody : Stays rule P body) :
    Stays rule P (Growth.loop rule body) :=
  fun _ _ ha => hbody.detour hP ha (Or.inl rfl)

/-- An optional body goes on at the state behind it. -/
theorem Stays.bypass (hP : ∀ t, P (.epsilon t)) {body : Growth → Growth}
    (hbody : Stays rule P body) : Stays rule P (Growth.bypass rule body) :=
  fun _ _ ha => hbody.detour hP ha (Or.inr rfl)

end

end Growth

/-! ### Patterns and commands -/

section

open Network Growth

variable {rule : RuleIndex} {P : Edge → Prop}

/-- Reading one symbol. -/
theorem Growth.Stays.read (hread : ∀ t l, P (.read t l)) (l : Label) :
    Stays rule P fun g => g.network.read rule g.exit l :=
  edge (by decide) (fun _ => rfl) (fun _ => rfl) fun t => hread t l

/-- Reading the characters of a text one by one. -/
theorem Growth.Stays.readChars (hread : ∀ t l, P (.read t l)) (cs : List Char) :
    Stays rule P (Growth.readChars rule cs) := by
  induction cs with
  | nil => exact nil
  | cons c cs ih => exact (read hread (.symbol c.toNat)).comp ih

mutual

/-- A pattern is compiled in steps of its rule, which add no edges but those that read a symbol or
nothing. -/
theorem Pattern.compile_stays (hP : ∀ t, P (.epsilon t)) (hread : ∀ t l, P (.read t l))
    (p : Pattern) : Stays rule P (p.compile rule) := by
  cases p with
  | literal text => exact .readChars hread text.toList
  | oneOf chars => exact .read hread (.oneOf chars.codePoints)
  | noneOf chars => exact .read hread (.noneOf chars.codePoints)
  | any => exact .read hread .any
  | seq parts => exact Pattern.compileSeq_stays hP hread parts
  | alt alternatives =>
      intro n a ha
      have hbasic : StateKind.basic ≠ .ruleStop := by decide
      have hstates : RuleSteps rule P n ((n.addState rule .decision).addState rule .basic) :=
        .tail (.single (.state (by decide))) (.state hbasic)
      have hdecision : ((n.addState rule .decision).addState rule .basic).Inside rule
          n.states.size := (includes_addState _ _ _).inside (inside_addState (by decide))
      have hjoin : ((n.addState rule .decision).addState rule .basic).Inside rule
          (n.states.size + 1) := by
        have h : ((n.addState rule .decision).addState rule .basic).Inside rule
            (n.addState rule .decision).states.size := inside_addState hbasic
        rwa [size_addState] at h
      have hentry := RuleStep.epsilon hP (hstates.includes.inside ha) hdecision.belongs
      have hways := Pattern.compileAlt_steps hP hread alternatives
        (hentry.includes.inside hdecision) (hentry.includes.belongs hjoin.belongs)
      exact ⟨(hstates.tail hentry).trans hways,
        (hentry.includes.trans hways.includes).inside hjoin⟩
  | repeated body least most =>
      have hbody := Pattern.compile_stays hP hread body
      cases most with
      | none => exact (hbody.pow least).comp (hbody.loop hP)
      | some most => exact (hbody.pow least).comp ((hbody.bypass hP).pow (most - least))

/-- The parts of a sequence, each from the end of the one before it. -/
theorem Pattern.compileSeq_stays (hP : ∀ t, P (.epsilon t)) (hread : ∀ t l, P (.read t l))
    (ps : List Pattern) : Stays rule P (Pattern.compileSeq rule ps) := by
  cases ps with
  | nil => exact .nil
  | cons p ps =>
      exact (Pattern.compile_stays hP hread p).comp (Pattern.compileSeq_stays hP hread ps)

/-- The branches of a choice, between a decision and a state that are there already. -/
theorem Pattern.compileAlt_steps (hP : ∀ t, P (.epsilon t)) (hread : ∀ t l, P (.read t l))
    (ps : List Pattern) {n : Network} {decision join : Nat} (hdecision : n.Inside rule decision)
    (hjoin : n.Belongs rule join) :
    RuleSteps rule P n (Pattern.compileAlt rule decision join ps n) := by
  cases ps with
  | nil => exact .refl
  | cons p ps =>
      have hstate : RuleStep rule P n (n.addState rule .basic) := .state (by decide)
      have hnew : (n.addState rule .basic).Inside rule n.states.size := inside_addState (by decide)
      have hentry := RuleStep.epsilon hP (hstate.includes.inside hdecision) hnew.belongs
      obtain ⟨hway, hexit⟩ := Pattern.compile_stays hP hread p _ _ (hentry.includes.inside hnew)
      have hbefore := (hstate.includes.trans hentry.includes).trans hway.includes
      have hend := RuleStep.epsilon hP hexit (hbefore.belongs hjoin)
      have hall := hbefore.trans hend.includes
      -- The other alternatives start from the same two states.
      have hrest := Pattern.compileAlt_steps hP hread ps (hall.inside hdecision)
        (hall.belongs hjoin)
      exact ((((Relation.ReflTransGen.single hstate).tail hentry).trans hway).tail hend).trans hrest

end

/-- So many command edges, numbered from `i` on, follow each other from state `a` on. -/
def Network.CommandChain (n : Network) : Nat → Nat → StateId → Prop
  | _, 0, _ => True
  | i, k + 1, a => ∃ s b, n.state? a = some s ∧ s.kind ≠ .ruleStop ∧ .command b i ∈ s.edges ∧
      CommandChain n (i + 1) k b

/-- A chain of commands stays one. -/
theorem Network.Includes.commandChain {n m : Network} (h : n.Includes m) {i k : Nat} {a : StateId}
    (hchain : n.CommandChain i k a) : m.CommandChain i k a := by
  induction k generalizing i a with
  | zero => trivial
  | succ k ih =>
      obtain ⟨s, b, hs, hkind, hmem, hrest⟩ := hchain
      obtain ⟨s', hs', -, hkind', hedges⟩ := h a s hs
      exact ⟨s', b, hs', hkind' ▸ hkind, hedges _ hmem, ih hrest⟩

/-- A new state behind the edge of a command. -/
theorem Growth.Stays.command {i : Nat} (hcommand : ∀ t, P (.command t i)) :
    Stays rule P fun g =>
      ⟨(g.network.addState rule .basic).addEdge g.exit (.command g.network.nextId i),
        g.network.nextId⟩ :=
  edge (by decide) (e := fun t => .command t i) (fun _ => rfl) (fun _ => rfl) hcommand

/-- Commands are compiled in steps of their rule. -/
theorem Growth.Stays.runCommands (cs : List Command) {i : Nat}
    (hcommand : ∀ t j, i ≤ j → j < i + cs.length → P (.command t j)) :
    Stays rule P (Growth.runCommands rule cs i) := by
  induction cs generalizing i with
  | nil => exact nil
  | cons c cs ih =>
      rw [List.length_cons] at hcommand
      have hfirst : Stays rule P _ := command fun t => hcommand t i (Nat.le_refl i) (by omega)
      exact hfirst.comp (ih fun t j hle hlt => hcommand t j (by omega) (by omega))

/-- The commands follow each other from the state on where they were added. -/
theorem Growth.commandChain_runCommands (cs : List Command) (i : Nat) {n : Network} {a : Nat}
    (ha : n.Inside rule a) :
    (Growth.runCommands rule cs i ⟨n, a⟩).network.CommandChain i cs.length a := by
  induction cs generalizing n a i with
  | nil => trivial
  | cons c cs ih =>
      -- The first command leads to a new state, and the others are added there.
      have hcommand : Stays rule (fun _ => True) _ := .command (i := i) fun _ => trivial
      have hcommands : Stays rule (fun _ => True) (Growth.runCommands rule cs (i + 1)) :=
        .runCommands cs fun _ _ _ _ => trivial
      obtain ⟨-, hnext⟩ := hcommand n a ha
      obtain ⟨hrest, -⟩ := hcommands _ _ hnext
      obtain ⟨s, hs, -, hkind⟩ := ((includes_addState n rule .basic).inside ha)
      have hedge : ((n.addState rule .basic).addEdge a (.command n.nextId i)).state? a =
          some { s with edges := s.edges ++ [.command n.nextId i] } := by
        rw [addEdge_eq_attach rfl, state?_attach, if_pos rfl, hs]
        rfl
      obtain ⟨s', hs', -, hkind', hedges⟩ := hrest.includes a _ hedge
      exact ⟨s', n.nextId, hs', hkind' ▸ hkind, hedges _ (by simp), ih (i + 1) hnext⟩

end

/-! ### The network of a lexer -/

/-- The number of the first command of a rule. -/
def commandBase (rules : List LexerRule) (i : RuleIndex) : Nat :=
  ((rules.take i).flatMap LexerRule.commands).length

/-- The edges that a rule may have: no calls, and no commands but its own. -/
def Allows (rules : List LexerRule) (i : RuleIndex) : Edge → Prop
  | .call _ _ _ _ => False
  | .command _ k => ∃ r j, rules[i]? = some r ∧ j < r.commands.length ∧ k = commandBase rules i + j
  | _ => True

section

variable {rules : List LexerRule} {i : RuleIndex} {r : LexerRule}

/-- Rules that come later do not change the numbers of the commands. -/
theorem commandBase_append (h : i ≤ rules.length) (more : List LexerRule) :
    commandBase (rules ++ more) i = commandBase rules i := by
  rw [commandBase, commandBase, List.take_append_of_le_length h]

/-- The commands of a rule stand together in the table of all commands. -/
theorem getElem?_flatMap_commands (hr : rules[i]? = some r) {j : Nat}
    (hj : j < r.commands.length) :
    (rules.flatMap LexerRule.commands)[commandBase rules i + j]? = r.commands[j]? := by
  obtain ⟨hlt, hget⟩ := List.getElem?_eq_some_iff.mp hr
  -- The rule is split off from those in front of it and those behind.
  have hsplit : rules = rules.take i ++ r :: rules.drop (i + 1) := by
    rw [← hget, List.getElem_cons_drop hlt, List.take_append_drop]
  have hall : rules.flatMap LexerRule.commands = (rules.take i).flatMap LexerRule.commands ++
      (r.commands ++ (rules.drop (i + 1)).flatMap LexerRule.commands) := by
    conv_lhs => rw [hsplit]
    rw [List.flatMap_append, List.flatMap_cons]
  rw [hall, commandBase, List.getElem?_append_right (Nat.le_add_right _ _),
    Nat.add_sub_cancel_left, List.getElem?_append_left hj]

/-- What a rule may have does not depend on rules that come later. -/
theorem Allows.append {e : Edge} (h : Allows rules i e) (more : List LexerRule) :
    Allows (rules ++ more) i e := by
  cases e with
  | command t k =>
      obtain ⟨r, j, hr, hj, rfl⟩ := h
      have hlt := (List.getElem?_eq_some_iff.mp hr).1
      exact ⟨r, j, by rw [List.getElem?_append_left hlt, hr], hj,
        by rw [commandBase_append (Nat.le_of_lt hlt)]⟩
  | _ => exact h

/-- Lexer rules call no rules. -/
theorem Allows.isCall_eq_false {e : Edge} (h : Allows rules i e) : e.isCall = false := by
  cases e with
  | call => exact h.elim
  | _ => rfl

end

/-- More may be allowed. -/
theorem Network.Owned.mono {n : Network} {P Q : RuleIndex → Edge → Prop} (h : n.Owned P)
    (hPQ : ∀ r e, P r e → Q r e) : n.Owned Q :=
  ⟨h.start, h.stop, fun a s hs hkind e he => (h.edges a s hs hkind e he).imp_right (hPQ _ _)⟩

/-- The stop state of a new rule has no edges. -/
theorem Network.sealed_addRule {n : Network} (h : n.Sealed) : n.addRule.Sealed := by
  intro a s hs hkind
  rw [state?_addRule] at hs
  split at hs
  · cases hs
    rfl
  · split at hs
    · cases hs
      rfl
    · exact h a s hs hkind

/-- The start state of a new rule. -/
theorem Network.inside_addRule (n : Network) : n.addRule.Inside n.ruleCount n.states.size :=
  ⟨_, by rw [state?_addRule, if_neg (Nat.ne_of_lt (Nat.lt_succ_self _)), if_pos rfl], rfl,
    StateKind.noConfusion⟩

namespace LexerNetwork

/-- The state where the pattern of a rule ends when the rule is added. -/
def patternEnd (l : LexerNetwork) (r : LexerRule) : StateId :=
  (r.pattern.compile l.network.ruleCount ⟨l.network.addRule, l.network.nextId⟩).exit

/-- The network has the rules, each with its own part: a way for every text of the pattern from the
start of the rule to one state, and from there on the commands. -/
structure Implements (l : LexerNetwork) (rules : List LexerRule) : Prop where
  commands_eq : l.commands.toList = rules.flatMap LexerRule.commands
  starts_size : l.network.starts.size = rules.length
  stops_size : l.network.stops.size = rules.length
  owned : l.network.Owned (Allows rules)
  sealed : l.network.Sealed
  rule : ∀ (i : RuleIndex) (r : LexerRule), rules[i]? = some r → ∃ start exit : StateId,
    l.network.start? i = some start ∧
      (∀ w ∈ r.pattern.language, ∃ k, l.network.Path k start w exit) ∧
      l.network.CommandChain (commandBase rules i) r.commands.length exit

open Network Growth

/-- A rule is added in steps of the rule. They end with the pattern and, behind it, the commands of
the rule in place. -/
theorem addRule_steps {l : LexerNetwork} {r : LexerRule} {P : Edge → Prop}
    (hP : ∀ t, P (.epsilon t)) (hread : ∀ t x, P (.read t x))
    (hcommand : ∀ t j, l.commands.size ≤ j → j < l.commands.size + r.commands.length →
      P (.command t j)) :
    RuleSteps l.network.ruleCount P l.network.addRule (l.addRule r).network ∧
      (∀ w ∈ r.pattern.language, ∃ k,
        (l.addRule r).network.Path k l.network.states.size w (l.patternEnd r)) ∧
      (l.addRule r).network.CommandChain l.commands.size r.commands.length (l.patternEnd r) := by
  obtain ⟨n, tokenTypes, commands⟩ := l
  have hstate : n.addRule.state? n.states.size =
      some ⟨n.states.size, n.ruleCount, .ruleStart, []⟩ := by
    rw [state?_addRule, if_neg (Nat.ne_of_lt (Nat.lt_succ_self _)), if_pos rfl]
  have hstop : n.addRule.Belongs n.ruleCount (n.states.size + 1) :=
    ⟨_, by rw [state?_addRule, if_pos rfl], rfl⟩
  -- The pattern, then the commands, then the edge to the stop state.
  obtain ⟨hpattern, hmid⟩ := r.pattern.compile_stays hP hread n.addRule n.states.size
    n.inside_addRule
  obtain ⟨hcommands, hexit⟩ := Stays.runCommands r.commands hcommand _ _ hmid
  have hlast := RuleStep.epsilon hP hexit
    ((hpattern.includes.trans hcommands.includes).belongs hstop)
  have hreads := ((r.pattern.compile_builds n.ruleCount n.addRule n.states.size
    ⟨_, hstate, StateKind.noConfusion, rfl⟩).recognizes _ fun _ _ _ _ => rfl).complete
  have hchain := commandChain_runCommands r.commands commands.size hmid
  refine ⟨(hpattern.trans hcommands).tail hlast, fun w hw => ?_,
    hlast.includes.commandChain hchain⟩
  obtain ⟨k, hpath⟩ := hreads w hw
  exact ⟨k, (hcommands.includes.trans hlast.includes).path hpath⟩

/-- A lexer without rules has nothing to do. -/
theorem implements_empty : empty.Implements [] where
  commands_eq := rfl
  starts_size := rfl
  stops_size := rfl
  owned := by
    refine ⟨fun _ _ h => ?_, fun _ _ h => ?_, fun _ _ h => ?_⟩ <;>
      simp [empty, Network.empty, start?, stop?, state?] at h
  sealed := fun _ _ h => by simp [empty, Network.empty, state?] at h
  rule := fun _ _ h => by cases h

/-- The commands of a new rule are numbered behind those in the table. -/
theorem Implements.commandBase_length {l : LexerNetwork} {rules : List LexerRule}
    (h : l.Implements rules) (more : List LexerRule) :
    commandBase (rules ++ more) rules.length = l.commands.size := by
  rw [commandBase_append (Nat.le_refl _), commandBase, List.take_length, ← h.commands_eq,
    Array.length_toList]

/-- Adding a rule gives the network of one more rule. The parts of the others stay as they are. -/
theorem Implements.addRule {l : LexerNetwork} {rules : List LexerRule} (h : l.Implements rules)
    (r : LexerRule) : (l.addRule r).Implements (rules ++ [r]) := by
  have hcount : l.network.ruleCount = rules.length := h.starts_size
  have hbase := h.commandBase_length [r]
  have hnew : (rules ++ [r])[rules.length]? = some r := by simp
  obtain ⟨hsteps, hpath, hchain⟩ := addRule_steps (l := l) (r := r)
    (P := Allows (rules ++ [r]) rules.length) (fun _ => trivial) (fun _ _ => trivial)
    fun t j hle hlt => ⟨r, j - l.commands.size, hnew, by omega, by omega⟩
  rw [hcount] at hsteps
  have hincludes := (includes_addRule l.network).trans hsteps.includes
  have hstarts : (l.addRule r).network.starts = l.network.starts.push l.network.states.size :=
    hsteps.starts_eq.1
  have hstops : (l.addRule r).network.stops = l.network.stops.push (l.network.states.size + 1) :=
    hsteps.starts_eq.2
  -- An earlier rule keeps its way and its commands, which are included. The new one has them from
  -- its steps.
  refine ⟨?_, ?_, ?_, ?_, hsteps.sealed (sealed_addRule h.sealed), fun i r' hr' => ?_⟩
  · show (l.commands ++ r.commands).toList = _
    rw [Array.toList_appendList, h.commands_eq]
    simp
  · rw [hstarts, Array.size_push, h.starts_size, List.length_append]
    rfl
  · rw [hstops, Array.size_push, h.stops_size, List.length_append]
    rfl
  · have hold := h.owned.mono fun _ _ he => Allows.append he [r]
    exact hsteps.owned (owned_addRule hold (h.stops_size.trans h.starts_size.symm)) fun _ he => he
  · rcases Nat.lt_or_ge i rules.length with hi | hi
    · rw [List.getElem?_append_left hi] at hr'
      obtain ⟨start, exit', hstart, hpath', hchain'⟩ := h.rule i r' hr'
      refine ⟨start, exit', ?_, fun w hw => ?_, ?_⟩
      · have hne : i ≠ l.network.starts.size := by
          rw [h.starts_size]
          exact Nat.ne_of_lt hi
        rw [start?, hstarts, Array.getElem?_push, if_neg hne]
        exact hstart
      · obtain ⟨k, hk⟩ := hpath' w hw
        exact ⟨k, hincludes.path hk⟩
      · rw [commandBase_append (Nat.le_of_lt hi)]
        exact hincludes.commandChain hchain'
    · have hlen := (List.getElem?_eq_some_iff.mp hr').1
      rw [List.length_append, List.length_singleton] at hlen
      obtain rfl : i = rules.length := Nat.le_antisymm (Nat.le_of_lt_succ hlen) hi
      cases hnew.symm.trans hr'
      refine ⟨l.network.states.size, l.patternEnd r, ?_, hpath, hbase.symm ▸ hchain⟩
      rw [start?, hstarts, Array.getElem?_push, if_pos h.starts_size.symm]

/-- The network of a lexer has its rules. -/
theorem ofRules_implements (rules : List LexerRule) : (ofRules rules).Implements rules := by
  induction rules using List.reverseRecOn with
  | nil => exact implements_empty
  | append_singleton rules r ih =>
      rw [show ofRules (rules ++ [r]) = (ofRules rules).addRule r from List.foldl_concat ..]
      exact ih.addRule r

end LexerNetwork

/-! ### The search for commands -/

section

open Network

/-- The search follows every edge of a state that is no stop state and makes no call. -/
theorem State.target_mem_inRule {s : State} (hkind : s.kind ≠ .ruleStop) {e : Edge}
    (he : e ∈ s.edges) (hcall : e.isCall = false) : e.target ∈ s.inRule := by
  rw [inRule, if_neg hkind]
  refine List.mem_map.mpr ⟨e, he, ?_⟩
  cases e with
  | call => cases hcall
  | _ => rfl

/-- The commands of a state are those on its edges. -/
theorem State.mem_commandIndices_iff (s : State) (i : Nat) :
    i ∈ s.commandIndices ↔ s.kind ≠ .ruleStop ∧ ∃ b, .command b i ∈ s.edges := by
  rw [commandIndices]
  split
  · rename_i hkind
    simp [hkind]
  · rename_i hkind
    simp only [List.mem_filterMap, List.mem_reverse]
    constructor
    · rintro ⟨e, he, hi⟩
      cases e with
      | command b j =>
          cases hi
          exact ⟨hkind, b, he⟩
      | _ => cases hi
    · rintro ⟨-, b, hb⟩
      exact ⟨_, hb, rfl⟩

variable {n : Network} {P : RuleIndex → Edge → Prop} {rule : RuleIndex} {a b : StateId}

/-- The search for commands finds the commands on the edges of all states that can be reached within
the rule. -/
theorem Network.mem_commandsFrom_iff (n : Network) (start : StateId) (i : Nat) :
    i ∈ n.commandsFrom start ↔ ∃ a s b, Relation.ReflTransGen (n.LeadsAlong State.inRule) start a ∧
      n.state? a = some s ∧ s.kind ≠ .ruleStop ∧ .command b i ∈ s.edges := by
  simp only [commandsFrom, List.mem_eraseDups, List.mem_flatMap, mem_reach_iff, List.mem_singleton,
    exists_eq_left]
  constructor
  · rintro ⟨a, ⟨-, hreach⟩, hi⟩
    cases hs : n.state? a with
    | none => simp [hs] at hi
    | some s =>
        rw [hs] at hi
        obtain ⟨hkind, b, hb⟩ := (s.mem_commandIndices_iff i).mp hi
        exact ⟨a, s, b, hreach, hs, hkind, hb⟩
  · rintro ⟨a, s, b, hreach, hs, hkind, hb⟩
    refine ⟨a, ⟨state?_lt hs, hreach⟩, ?_⟩
    rw [hs]
    exact (s.mem_commandIndices_iff i).mpr ⟨hkind, b, hb⟩

/-- The search stays in the rule. -/
theorem Network.Owned.belongs_of_leads (h : n.Owned P) (ha : n.Belongs rule a)
    (hleads : Relation.ReflTransGen (n.LeadsAlong State.inRule) a b) : n.Belongs rule b := by
  induction hleads with
  | refl => exact ha
  | tail _ hstep ih =>
      obtain ⟨s, hs, hmem⟩ := hstep
      obtain rfl : s.rule = rule := Belongs.unique ⟨s, hs, rfl⟩ ih
      rw [State.inRule] at hmem
      split at hmem
      · cases hmem
      · rename_i hkind
        obtain ⟨e, he, rfl⟩ := List.mem_map.mp hmem
        have hkeeps := (h.edges _ s hs hkind e he).1
        cases e <;> exact hkeeps

/-- What the search comes to from the start of a rule is a state of the rule. -/
theorem Network.Owned.rule_of_leads (h : n.Owned P) (hstart : n.start? rule = some a)
    (hleads : Relation.ReflTransGen (n.LeadsAlong State.inRule) a b) {s : State}
    (hs : n.state? b = some s) : s.rule = rule :=
  Belongs.unique ⟨s, hs, rfl⟩ (h.belongs_of_leads (h.start rule a hstart) hleads)

namespace LexerNetwork.Implements

variable {l : LexerNetwork} {rules : List LexerRule}

/-- The edges of a lexer are followed by the search. -/
theorem leadsAlong (h : l.Implements rules) {s : State} (hs : l.network.state? a = some s)
    {e : Edge} (he : e ∈ s.edges) : l.network.LeadsAlong State.inRule a e.target := by
  have hkind := h.sealed.kind_ne hs he
  have hallowed := (h.owned.edges a s hs hkind e he).2
  exact ⟨s, hs, State.target_mem_inRule hkind he hallowed.isCall_eq_false⟩

/-- The search goes along every way that reads a text. -/
theorem leads_of_path (h : l.Implements rules) {k : Nat} {w : List Char}
    (hpath : l.network.Path k a w b) :
    Relation.ReflTransGen (l.network.LeadsAlong State.inRule) a b := by
  induction hpath with
  | refl => exact .refl
  | move hmove _ ih =>
      obtain ⟨s, hs, e, he, -, rfl⟩ := hmove
      exact .head (h.leadsAlong hs he) ih
  | take htake _ ih =>
      obtain ⟨s, hs, e, he, -, rfl⟩ := htake
      exact .head (h.leadsAlong hs he) ih

/-- The search goes along a chain of commands and finds them all. -/
theorem mem_commandsFrom_of_chain (h : l.Implements rules) {start : StateId} {i k j : Nat}
    (hreach : Relation.ReflTransGen (l.network.LeadsAlong State.inRule) start a)
    (hchain : l.network.CommandChain i k a) (hj : j < k) :
    i + j ∈ l.network.commandsFrom start := by
  induction k generalizing i j a with
  | zero => exact absurd hj (Nat.not_lt_zero j)
  | succ k ih =>
      obtain ⟨s, b, hs, hkind, hmem, hrest⟩ := hchain
      cases j with
      | zero =>
          exact (l.network.mem_commandsFrom_iff start i).mpr ⟨a, s, b, hreach, hs, hkind, hmem⟩
      | succ j =>
          rw [show i + (j + 1) = i + 1 + j from Nat.add_right_comm i j 1]
          exact ih (hreach.tail (h.leadsAlong hs hmem)) hrest (Nat.lt_of_succ_lt_succ hj)

/-- From the start of a rule the search finds no commands but those of the rule. -/
theorem exists_of_mem_commandsFrom (h : l.Implements rules) {i : RuleIndex} {r : LexerRule}
    (hr : rules[i]? = some r) {start : StateId} (hstart : l.network.start? i = some start) {k : Nat}
    (hk : k ∈ l.network.commandsFrom start) :
    ∃ j < r.commands.length, k = commandBase rules i + j := by
  obtain ⟨a, s, b, hreach, hs, hkind, hmem⟩ := (l.network.mem_commandsFrom_iff start k).mp hk
  -- The search does not leave the rule, and there only its own commands are allowed.
  have hrule := h.owned.rule_of_leads hstart hreach hs
  obtain ⟨r', j, hr', hj, hk⟩ := (h.owned.edges a s hs hkind _ hmem).2
  rw [hrule] at hr' hk
  cases hr.symm.trans hr'
  exact ⟨j, hj, hk⟩

/-- From the start of a rule that can match at all, the search finds the commands of the rule and no
others. -/
theorem mem_commandsFrom_iff (h : l.Implements rules) {i : RuleIndex} {r : LexerRule}
    (hr : rules[i]? = some r) {start : StateId} (hstart : l.network.start? i = some start)
    {w : List Char} (hw : w ∈ r.pattern.language) (k : Nat) :
    k ∈ l.network.commandsFrom start ↔ ∃ j < r.commands.length, k = commandBase rules i + j := by
  constructor
  · exact h.exists_of_mem_commandsFrom hr hstart
  · rintro ⟨j, hj, rfl⟩
    obtain ⟨start', exit, hstart', hpath, hchain⟩ := h.rule i r hr
    cases hstart.symm.trans hstart'
    -- Some text of the pattern leads to the end of the pattern, where the commands begin.
    obtain ⟨m, hm⟩ := hpath w hw
    exact h.mem_commandsFrom_of_chain (h.leads_of_path hm) hchain hj

end LexerNetwork.Implements

end

end Caret
