import Caret.Proofs.Realization
import Caret.Proofs.Recognition

/-!
# `Caret.Proofs.PatternNetwork`: networks of patterns read the texts of the patterns

A pattern is compiled by growing a network from a state without edges. `Growth.Spans` says what a
piece of network grown in this way is good for. It leaves the states before it alone, but for the
one it starts from, and it reads a language between its ends, whatever is put behind its exit later.
So the claim about reading is made for every network that has the states of the piece, the exit
apart.

`Growth.Builds f L` says that growing by `f` adds such a piece for the language `L` everywhere.
Builders are put together like languages, and `Pattern.compile_builds` follows the definition of
patterns. `LexerNetwork.ofRules_lexes` draws the conclusion for all rules of a lexer.
-/

set_option autoImplicit false

open scoped Computability

namespace Caret

namespace Network

/-! ### Changes to a network -/

/-- The states of `n` are states of `m`, and only the touched ones may have changed. -/
structure Patched (n m : Network) (touched : Nat → Prop) : Prop where
  size_le : n.states.size ≤ m.states.size
  starts_eq : m.starts = n.starts
  frame : ∀ x : Nat, x < n.states.size → ¬ touched x → m.state? x = n.state? x

namespace Patched

variable {n m k : Network} {touched touched' : Nat → Prop}

/-- Nothing was changed. -/
theorem refl (n : Network) (touched : Nat → Prop) : n.Patched n touched where
  size_le := Nat.le_refl _
  starts_eq := rfl
  frame _ _ _ := rfl

/-- Two changes together touch what the first may touch, if the second touches no other old
state. -/
theorem trans (h : n.Patched m touched) (h' : m.Patched k touched')
    (hsub : ∀ x : Nat, x < n.states.size → touched' x → touched x) : n.Patched k touched where
  size_le := Nat.le_trans h.size_le h'.size_le
  starts_eq := h'.starts_eq.trans h.starts_eq
  frame x hx hnot := by
    rw [h'.frame x (Nat.lt_of_lt_of_le hx h.size_le) fun ht => hnot (hsub x hx ht)]
    exact h.frame x hx hnot

/-- A state that is not touched keeps its edges. -/
theorem has (h : n.Patched m touched) {x : Nat} {edges : List Edge} (hx : n.Has x edges)
    (hnot : ¬ touched x) : m.Has x edges := by
  obtain ⟨s, hs, hrest⟩ := hx
  exact ⟨s, by rw [h.frame x (state?_lt hs) hnot, hs], hrest⟩

end Patched

/-- A new state touches no other. -/
theorem patched_addState (n : Network) (rule : RuleIndex) (kind : StateKind)
    (touched : Nat → Prop) : n.Patched (n.addState rule kind) touched where
  size_le := by simp
  starts_eq := rfl
  frame x hx _ := by rw [state?_addState, if_neg (Nat.ne_of_lt hx)]

/-- An edge touches its source. -/
theorem patched_addEdge (n : Network) (source : Nat) {e : Edge} (he : e.isCall = false) :
    n.Patched (n.addEdge source e) (· = source) where
  size_le := by rw [size_addEdge]
  starts_eq := by rw [addEdge_eq_attach he]; rfl
  frame x _ hx := by rw [addEdge_eq_attach he, state?_attach, if_neg (Ne.symm hx)]

/-- A choice touches its decision. -/
theorem patched_choose (n : Network) (decision first second : Nat) :
    n.Patched (n.choose decision first second) (· = decision) :=
  (n.patched_addEdge decision rfl).trans (patched_addEdge _ decision rfl) fun _ _ hx => hx

/-- The decision has the two edges then. -/
theorem has_choose {n : Network} {decision : Nat} (h : n.Has decision []) (first second : Nat) :
    (n.choose decision first second).Has decision [.epsilon first, .epsilon second] :=
  has_addEdge rfl (has_addEdge rfl h)

/-- A state keeps its edges when another one is added. -/
theorem Has.addState {n : Network} {x : Nat} {edges : List Edge} (h : n.Has x edges)
    (rule : RuleIndex) (kind : StateKind) : (n.addState rule kind).Has x edges :=
  (n.patched_addState rule kind fun _ => False).has h not_false

/-- The edges of a state are known from the state. -/
theorem Has.of_state?_eq {n m : Network} {x : Nat} {edges : List Edge} (h : n.Has x edges)
    (heq : m.state? x = n.state? x) : m.Has x edges := by
  obtain ⟨s, hs, hrest⟩ := h
  exact ⟨s, heq.trans hs, hrest⟩

end Network

/-! ### Pieces -/

/-- The piece of network that was grown from state `a` of `n` reads the texts of a language. -/
structure Growth.Spans (n : Network) (a : Nat) (g : Growth) (L : Language Char) : Prop where
  patched : n.Patched g.network (· = a)
  exit_new : a = g.exit ∨ n.states.size ≤ g.exit
  exit_has : g.network.Has g.exit []
  recognizes : ∀ M : Network, (∀ x : Nat, x = a ∨ n.states.size ≤ x → x < g.network.states.size →
    x ≠ g.exit → M.state? x = g.network.state? x) → M.Recognizes L a g.exit

/-- Growing from a state without edges adds a piece that reads the texts of the language. -/
def Growth.Builds (f : Growth → Growth) (L : Language Char) : Prop :=
  ∀ (n : Network) (a : Nat), n.Has a [] → Growth.Spans n a (f ⟨n, a⟩) L

namespace Growth

open Network

/-- Two pieces one behind the other read the product of their languages. The second one grows from
the exit of the first. -/
theorem Spans.trans {n : Network} {a : Nat} {g h : Growth} {L L' : Language Char}
    (hg : Spans n a g L) (hh : Spans g.network g.exit h L') : Spans n a h (L * L') where
  patched := hg.patched.trans hh.patched fun x hx hexit => by
    rcases hg.exit_new with heq | hle
    · exact hexit.trans heq.symm
    · omega
  exit_new := by
    have hle := hg.patched.size_le
    rcases hh.exit_new with heq | hnew
    · rw [← heq]
      exact hg.exit_new
    · exact Or.inr (Nat.le_trans hle hnew)
  exit_has := hh.exit_has
  recognizes M hM := by
    have hlt := hg.exit_has.lt
    have hle := hg.patched.size_le
    refine (hg.recognizes M ?_).trans (hh.recognizes M ?_)
    · -- The second piece does not touch the first one, but for the exit.
      intro x hx hsize hexit
      have hne : x ≠ h.exit := by
        rcases hh.exit_new with heq | hnew
        · rwa [← heq]
        · omega
      rw [hM x hx (Nat.lt_of_lt_of_le hsize hh.patched.size_le) hne]
      exact hh.patched.frame x hsize hexit
    · intro x hx hsize hexit
      -- The states of the second piece are the exit of the first one and new states.
      refine hM x ?_ hsize hexit
      rcases hx with rfl | hx
      · exact hg.exit_new.imp Eq.symm id
      · exact Or.inr (Nat.le_trans hle hx)

namespace Builds

variable {f h : Growth → Growth} {L L' : Language Char}

/-- Adding nothing reads the empty text. -/
theorem nil : Builds (fun g => g) 1 := fun n a ha => {
  patched := .refl n _
  exit_new := Or.inl rfl
  exit_has := ha
  recognizes := fun M _ => .refl M a }

/-- Growing twice. -/
theorem comp (hf : Builds f L) (hh : Builds h L') : Builds (fun g => h (f g)) (L * L') := by
  intro n a ha
  have hspans := hf n a ha
  exact hspans.trans (hh _ _ hspans.exit_has)

/-- Growing by copies. -/
theorem pow (hf : Builds f L) (k : Nat) : Builds (Nat.repeat f k) (L ^ k) := by
  induction k with
  | zero => exact pow_zero L ▸ nil
  | succ k ih =>
      rw [pow_succ]
      exact ih.comp hf

/-- A new state behind one edge. -/
theorem edge {rule : RuleIndex} {kind : StateKind} (hkind : kind ≠ .ruleStop) {e : StateId → Edge}
    (hcall : ∀ t, (e t).isCall = false)
    (hreads : ∀ (M : Network) (a t : StateId), M.Has a [e t] → M.Recognizes L a t) :
    Builds (fun g => ⟨(g.network.addState rule kind).addEdge g.exit (e g.network.nextId),
      g.network.nextId⟩) L := by
  intro n a ha
  have hlt : a < n.states.size := ha.lt
  have hadd := n.patched_addState rule kind (· = a)
  have hedge := (n.addState rule kind).patched_addEdge a (hcall n.nextId)
  have hpatched := hadd.trans hedge fun _ _ hx => hx
  refine ⟨hpatched, Or.inr (Nat.le_refl _), ?_, ?_⟩
  · exact hedge.has (has_addState n rule kind hkind) (Nat.ne_of_gt hlt)
  · intro M hM
    have hhas := has_addEdge (hcall n.nextId)
      ((n.patched_addState rule kind fun _ => False).has ha not_false)
    refine hreads M a _ (hhas.of_state?_eq (hM a (Or.inl rfl) ?_ (Nat.ne_of_lt hlt)))
    exact Nat.lt_of_lt_of_le hlt hpatched.size_le

end Builds

/-! ### Loops and optional pieces -/

/-- The states around a body: a decision behind `a`, the state where the body starts, and the state
where the way goes on. -/
def fork (rule : RuleIndex) (n : Network) (a : StateId) : Network :=
  ((((n.addState rule .decision).addState rule .basic).addState rule .basic).addEdge a
    (.epsilon n.nextId)).choose n.nextId (n.nextId + 1) (n.nextId + 2)

/-- What a fork consists of. The two states behind the decision have no edges yet. -/
theorem fork_spec (rule : RuleIndex) {n : Network} {a : Nat} (ha : n.Has a []) :
    n.Patched (fork rule n a) (· = a) ∧ (fork rule n a).states.size = n.states.size + 3 ∧
      (fork rule n a).Has a [.epsilon n.states.size] ∧
      (fork rule n a).Has n.states.size
        [.epsilon (n.states.size + 1), .epsilon (n.states.size + 2)] ∧
      (fork rule n a).Has (n.states.size + 1) [] ∧ (fork rule n a).Has (n.states.size + 2) [] := by
  have hlt : a < n.states.size := ha.lt
  have hbasic : StateKind.basic ≠ .ruleStop := by decide
  -- The three states, before any edge.
  have hdecision := ((has_addState n rule .decision (by decide)).addState rule .basic).addState
    rule .basic
  have hinside := (has_addState (n.addState rule .decision) rule .basic hbasic).addState rule .basic
  have hout := has_addState ((n.addState rule .decision).addState rule .basic) rule .basic hbasic
  have hsource := ((ha.addState rule .decision).addState rule .basic).addState rule .basic
  simp only [size_addState] at hinside hout
  -- The edge to the decision, then those out of it.
  have hentry := patched_addEdge (((n.addState rule .decision).addState rule .basic).addState rule
    .basic) a (rfl : (Edge.epsilon n.states.size).isCall = false)
  have hchoice := patched_choose ((((n.addState rule .decision).addState rule .basic).addState rule
    .basic).addEdge a (.epsilon n.states.size)) n.states.size (n.states.size + 1)
    (n.states.size + 2)
  have hstates : n.Patched (((n.addState rule .decision).addState rule .basic).addState rule .basic)
      (· = a) :=
    ((n.patched_addState rule .decision _).trans (patched_addState _ rule .basic fun _ => False)
      (fun _ _ => False.elim)).trans (patched_addState _ rule .basic fun _ => False)
      (fun _ _ => False.elim)
  refine ⟨(hstates.trans hentry fun _ _ hx => hx).trans hchoice fun x hx heq => ?_, ?_, ?_, ?_, ?_,
    ?_⟩
  · omega
  · simp [fork, choose, addEdge, nextId]
  · exact hchoice.has (has_addEdge rfl hsource) (Nat.ne_of_lt hlt)
  · exact has_choose (hentry.has hdecision (Nat.ne_of_gt hlt)) _ _
  · exact hchoice.has (hentry.has hinside (by omega)) (by omega)
  · exact hchoice.has (hentry.has hout (by omega)) (by omega)

/-- A body between the states of a fork, with an edge from its end to the decision or to the state
where the way goes on. What such a piece reads depends on these edges only. -/
theorem spans_detour {rule : RuleIndex} {n : Network} {a : Nat} (ha : n.Has a []) {g : Growth}
    {L L' : Language Char} (hbody : Spans (fork rule n a) (n.states.size + 1) g L) (back : Nat)
    (hreads : ∀ M : Network, M.Has n.states.size
        [.epsilon (n.states.size + 1), .epsilon (n.states.size + 2)] →
      M.Recognizes L (n.states.size + 1) back →
        M.Recognizes L' n.states.size (n.states.size + 2)) :
    Spans n a ⟨g.network.addEdge g.exit (.epsilon back), n.states.size + 2⟩ L' := by
  obtain ⟨hfork, hsize, hsource, hdecision, -, hout⟩ := fork_spec rule ha
  have hlt : a < n.states.size := ha.lt
  have hle := hbody.patched.size_le
  have hback := g.network.patched_addEdge g.exit (rfl : (Edge.epsilon back).isCall = false)
  have hexit : n.states.size + 1 ≤ g.exit ∧ n.states.size + 2 ≠ g.exit := by
    have hnew := hbody.exit_new
    omega
  -- States of the fork that are neither the start of the body nor its end stay as they are.
  have hkeep : ∀ {x : Nat} {edges : List Edge}, (fork rule n a).Has x edges →
      x < n.states.size + 1 ∨ x = n.states.size + 2 →
        (g.network.addEdge g.exit (.epsilon back)).Has x edges := by
    intro x edges hx hrange
    exact hback.has (hbody.patched.has hx (by omega)) (by omega)
  refine ⟨?_, Or.inr (Nat.le_add_right _ _), hkeep hout (Or.inr rfl), fun M hM => ?_⟩
  · refine (hfork.trans hbody.patched ?_).trans hback ?_
    · intro x hx heq
      omega
    · intro x hx heq
      omega
  · have hsize' := hback.size_le
    have hM' : ∀ x : Nat, x = a ∨ n.states.size ≤ x → x < g.network.states.size →
        x ≠ n.states.size + 2 →
          M.state? x = (g.network.addEdge g.exit (.epsilon back)).state? x :=
      fun x hx hlt' hne => hM x hx (Nat.lt_of_lt_of_le hlt' hsize') hne
    have hentry : M.Has a [.epsilon n.states.size] :=
      (hkeep hsource (by omega)).of_state?_eq (hM' a (Or.inl rfl) (by omega) (by omega))
    have hchoice : M.Has n.states.size
        [.epsilon (n.states.size + 1), .epsilon (n.states.size + 2)] :=
      (hkeep hdecision (by omega)).of_state?_eq
        (hM' _ (Or.inr (Nat.le_refl _)) (by omega) (by omega))
    have hend : M.Has g.exit [.epsilon back] :=
      (has_addEdge rfl hbody.exit_has).of_state?_eq
        (hM' g.exit (Or.inr (by omega)) hbody.exit_has.lt hexit.2.symm)
    have hinside : M.Recognizes L (n.states.size + 1) g.exit := by
      refine hbody.recognizes M fun x hx hlt' hne => ?_
      rw [hM' x (Or.inr (by omega)) hlt' (by omega)]
      exact hback.frame x hlt' hne
    have hround : M.Recognizes L (n.states.size + 1) back :=
      mul_one L ▸ hinside.trans (.move hend rfl)
    exact one_mul L' ▸ (Recognizes.move hentry rfl).trans (hreads M hchoice hround)

namespace Builds

variable {body : Growth → Growth} {L : Language Char}

/-- A loop reads any number of texts of its body: its end leads back to the decision. -/
theorem loop (hbody : Builds body L) (rule : RuleIndex) :
    Builds (Growth.loop rule body) L∗ := by
  intro n a ha
  have hinside := (fork_spec rule ha).2.2.2.2.1
  exact spans_detour ha (hbody _ _ hinside) n.states.size fun M hchoice hround =>
    .loop hchoice hround

/-- An optional body reads a text of the body or nothing: its end leads to where the way goes on. -/
theorem bypass (hbody : Builds body L) (rule : RuleIndex) :
    Builds (Growth.bypass rule body) (1 + L) := by
  intro n a ha
  have hinside := (fork_spec rule ha).2.2.2.2.1
  refine spans_detour ha (hbody _ _ hinside) (n.states.size + 2) fun M hchoice hround => ?_
  have hlanguage : 1 + L = ([(n.states.size + 1, L), (n.states.size + 2, 1)].map Prod.snd).sum := by
    show 1 + L = L + (1 + 0)
    rw [add_zero, add_comm]
  rw [hlanguage]
  refine Recognizes.choice hchoice ?_
  intro way hway
  simp only [List.mem_cons, List.not_mem_nil, or_false] at hway
  rcases hway with rfl | rfl
  · exact hround
  · exact .refl M _

end Builds

/-! ### Choices -/

/-- The network `m` comes from `n` by adding a way from `decision` to `join` for each of the
languages. -/
structure Fans (n : Network) (decision join : Nat) (m : Network) (Ls : List (Language Char)) :
    Prop where
  patched : n.Patched m (· = decision)
  ways : ∃ ways : List (StateId × Language Char), ways.map Prod.snd = Ls ∧
    (∀ old, n.Has decision old → m.Has decision (old ++ ways.map fun way => .epsilon way.1)) ∧
    ∀ M : Network, (∀ x : Nat, n.states.size ≤ x → x < m.states.size →
      M.state? x = m.state? x) → ∀ way ∈ ways, M.Recognizes way.2 way.1 join

/-- Without alternatives there are no ways. -/
theorem Fans.nil (n : Network) (decision join : Nat) : Fans n decision join n [] where
  patched := .refl n _
  ways := ⟨[], rfl, by simp, by simp⟩

/-- One more way, in front of the others. -/
theorem Fans.cons {rule : RuleIndex} {n m : Network} {decision join : Nat} {g : Growth}
    {L : Language Char} {Ls : List (Language Char)} (hdecision : decision < n.states.size)
    (hway : Spans ((n.addState rule .basic).addEdge decision (.epsilon n.states.size))
      n.states.size g L)
    (hrest : Fans (g.network.addEdge g.exit (.epsilon join)) decision join m Ls) :
    Fans n decision join m (L :: Ls) := by
  obtain ⟨ways, hways, hhas, hrecognizes⟩ := hrest.ways
  have hstate := n.patched_addState rule .basic (· = decision)
  have hentry := (n.addState rule .basic).patched_addEdge decision
    (rfl : (Edge.epsilon n.states.size).isCall = false)
  have hjoin := g.network.patched_addEdge g.exit (rfl : (Edge.epsilon join).isCall = false)
  have hsize : ((n.addState rule .basic).addEdge decision (.epsilon n.states.size)).states.size =
      n.states.size + 1 := by
    rw [size_addEdge, size_addState]
  have hexit : n.states.size ≤ g.exit := by
    rcases hway.exit_new with heq | hnew
    · exact Nat.le_of_eq heq
    · omega
  have hle := hway.patched.size_le
  have hle' := hjoin.size_le
  have hle'' := hrest.patched.size_le
  refine ⟨?_, (n.states.size, L) :: ways, by rw [List.map_cons, hways], ?_, ?_⟩
  · refine (((hstate.trans hentry fun _ _ hx => hx).trans hway.patched ?_).trans hjoin ?_).trans
      hrest.patched fun _ _ hx => hx
    · intro x hx heq
      omega
    · intro x hx heq
      omega
  · intro old hold
    have hlinked := has_addEdge (rfl : (Edge.epsilon n.states.size).isCall = false)
      (hold.addState rule .basic)
    have hkept := hjoin.has (hway.patched.has hlinked (by omega)) (by omega)
    have hall := hhas _ hkept
    rwa [List.append_assoc] at hall
  · intro M hM
    -- The other ways leave this one alone, since they touch the decision only.
    have hM' : ∀ x : Nat, n.states.size ≤ x →
        x < (g.network.addEdge g.exit (.epsilon join)).states.size →
          M.state? x = (g.network.addEdge g.exit (.epsilon join)).state? x := by
      intro x hx hlt
      rw [hM x hx (Nat.lt_of_lt_of_le hlt hle'')]
      exact hrest.patched.frame x hlt (by omega)
    intro way hmem
    rcases List.mem_cons.mp hmem with rfl | hmem
    · have hreads : M.Recognizes L n.states.size g.exit := by
        refine hway.recognizes M fun x hx hlt hne => ?_
        rw [hM' x (by omega) (Nat.lt_of_lt_of_le hlt hle')]
        exact hjoin.frame x hlt hne
      have hend : M.Has g.exit [.epsilon join] :=
        (has_addEdge rfl hway.exit_has).of_state?_eq
          (hM' g.exit hexit (Nat.lt_of_lt_of_le hway.exit_has.lt hle'))
      exact mul_one L ▸ hreads.trans (.move hend rfl)
    · exact hrecognizes M (fun x hx hlt => hM x (by omega) hlt) way hmem

/-- A decision behind `a`, with the ways of a fan to a common end. -/
theorem spans_alt {rule : RuleIndex} {n m : Network} {a : Nat} (ha : n.Has a [])
    {Ls : List (Language Char)}
    (hfan : Fans (((n.addState rule .decision).addState rule .basic).addEdge a
      (.epsilon n.states.size)) n.states.size (n.states.size + 1) m Ls) :
    Spans n a ⟨m, n.states.size + 1⟩ Ls.sum := by
  obtain ⟨ways, rfl, hhas, hrecognizes⟩ := hfan.ways
  have hlt : a < n.states.size := ha.lt
  have hsource := (ha.addState rule .decision).addState rule .basic
  have hdecision := (has_addState n rule .decision (by decide)).addState rule .basic
  have hjoin := has_addState (n.addState rule .decision) rule .basic (by decide)
  rw [size_addState] at hjoin
  have hentry := patched_addEdge ((n.addState rule .decision).addState rule .basic) a
    (rfl : (Edge.epsilon n.states.size).isCall = false)
  have hstates : n.Patched ((n.addState rule .decision).addState rule .basic) (· = a) :=
    (n.patched_addState rule .decision _).trans (patched_addState _ rule .basic fun _ => False)
      fun _ _ => False.elim
  have hsize : (((n.addState rule .decision).addState rule .basic).addEdge a
      (.epsilon n.states.size)).states.size = n.states.size + 2 := by
    rw [size_addEdge, size_addState, size_addState]
  have hle := hfan.patched.size_le
  refine ⟨?_, Or.inr (Nat.le_add_right _ _), ?_, fun M hM => ?_⟩
  · refine (hstates.trans hentry fun _ _ hx => hx).trans hfan.patched ?_
    intro x hx heq
    omega
  · show m.Has (n.states.size + 1) []
    exact hfan.patched.has (hentry.has hjoin (by omega)) (by omega)
  · have hM' : ∀ x : Nat, x = a ∨ n.states.size ≤ x → x < m.states.size →
        x ≠ n.states.size + 1 → M.state? x = m.state? x := hM
    have hlinked : M.Has a [.epsilon n.states.size] :=
      (hfan.patched.has (has_addEdge rfl hsource) (by omega)).of_state?_eq
        (hM' a (Or.inl rfl) (by omega) (by omega))
    have hchoice : M.Has n.states.size (ways.map fun way => .epsilon way.1) :=
      (hhas [] (hentry.has hdecision (by omega))).of_state?_eq
        (hM' _ (Or.inr (Nat.le_refl _)) (by omega) (by omega))
    have hways := Recognizes.choice hchoice (hrecognizes M fun x hx hlt' =>
      hM' x (Or.inr (by omega)) hlt' (by omega))
    exact one_mul (ways.map Prod.snd).sum ▸ (Recognizes.move hlinked rfl).trans hways

end Growth

/-! ### Patterns -/

namespace Growth.Builds

/-- Reading one character that the label admits. -/
theorem read (rule : RuleIndex) (label : Label) :
    Builds (fun g => g.network.read rule g.exit label)
      (singleChars fun c => label.admits Lexer.codePoints c.toNat) :=
  edge (by decide) (fun _ => rfl) fun _ _ _ h => .read h

/-- A chain of states for the characters of a literal. -/
theorem readChars (rule : RuleIndex) (cs : List Char) :
    Builds (Growth.readChars rule cs) ({cs} : Language Char) := by
  induction cs with
  | nil => exact nil
  | cons c cs ih =>
      have hlanguage : ({c :: cs} : Language Char) = (singleChars fun d =>
          (Label.symbol c.toNat).admits Lexer.codePoints d.toNat) * {cs} := by
        ext w
        rw [Language.mem_mul]
        constructor
        · rintro rfl
          exact ⟨[c], ⟨c, by simp [Label.admits_symbol], rfl⟩, cs, rfl, rfl⟩
        · rintro ⟨u, ⟨d, hd, rfl⟩, v, rfl, rfl⟩
          simp only [Label.admits_symbol, decide_eq_true_eq] at hd
          rw [hd]
          rfl
      rw [hlanguage]
      exact (read rule _).comp ih

/-- A chain of commands reads nothing. -/
theorem runCommands (rule : RuleIndex) (cs : List Command) (index : Nat) :
    Builds (Growth.runCommands rule cs index) 1 := by
  induction cs generalizing index with
  | nil => exact nil
  | cons c cs ih =>
      have hcommand : Builds (fun g => ⟨(g.network.addState rule .basic).addEdge g.exit
          (.command g.network.nextId index), g.network.nextId⟩) 1 :=
        edge (by decide) (e := fun t => .command t index) (fun _ => rfl) fun _ _ _ h => .move h rfl
      exact mul_one (1 : Language Char) ▸ hcommand.comp (ih (index + 1))

end Growth.Builds

section

open Growth

mutual

/-- The network of a pattern reads the texts of the pattern. -/
theorem Pattern.compile_builds (rule : RuleIndex) (p : Pattern) :
    Builds (p.compile rule) p.language := by
  cases p with
  | literal text => exact .readChars rule text.toList
  | oneOf chars =>
      have h := Builds.read rule (.oneOf chars.codePoints)
      simp only [Label.admits_oneOf] at h
      exact h
  | noneOf chars =>
      have h := Builds.read rule (.noneOf chars.codePoints)
      simp only [Label.admits_noneOf] at h
      exact h
  | any =>
      have h := Builds.read rule .any
      simp only [Label.admits_any] at h
      exact h
  | seq parts => exact Pattern.compileSeq_builds rule parts
  | alt alternatives =>
      intro n a ha
      have hdecision : n.states.size < (((n.addState rule .decision).addState rule
          .basic).addEdge a (.epsilon n.states.size)).states.size := by
        rw [Network.size_addEdge, Network.size_addState, Network.size_addState]
        omega
      rw [Pattern.language, Pattern.languageOfAlt_eq_sum]
      exact spans_alt ha (Pattern.compileAlt_fans rule alternatives _ _ hdecision)
  | repeated body least most =>
      have hbody := Pattern.compile_builds rule body
      cases most with
      | none =>
          rw [Pattern.language_repeated_none]
          exact (hbody.pow least).comp (hbody.loop rule)
      | some most =>
          rw [Pattern.language_repeated_some]
          exact (hbody.pow least).comp ((hbody.bypass rule).pow (most - least))

/-- The parts of a sequence read the product of their languages. -/
theorem Pattern.compileSeq_builds (rule : RuleIndex) (ps : List Pattern) :
    Builds (Pattern.compileSeq rule ps) (Pattern.languageOfSeq ps) := by
  cases ps with
  | nil => exact .nil
  | cons p ps =>
      exact (Pattern.compile_builds rule p).comp (Pattern.compileSeq_builds rule ps)

/-- The alternatives of a choice are ways from its decision to where they join. -/
theorem Pattern.compileAlt_fans (rule : RuleIndex) (ps : List Pattern) (n : Network)
    {decision : Nat} (join : Nat) (hdecision : decision < n.states.size) :
    Fans n decision join (Pattern.compileAlt rule decision join ps n)
      (ps.map Pattern.language) := by
  cases ps with
  | nil => exact .nil n decision join
  | cons p ps =>
      have hentry := (n.addState rule .basic).patched_addEdge decision
        (rfl : (Edge.epsilon n.states.size).isCall = false)
      have hway := Pattern.compile_builds rule p _ _
        (hentry.has (Network.has_addState n rule .basic (by decide)) (Nat.ne_of_gt hdecision))
      have hgrown := hway.patched.size_le
      rw [Network.size_addEdge, Network.size_addState] at hgrown
      refine .cons hdecision hway (Pattern.compileAlt_fans rule ps _ join ?_)
      rw [Network.size_addEdge]
      omega

end

end

/-! ### Rules -/

/-- Each rule of the network reads its language between its start state and its stop state, also
when more rules are added. -/
structure Network.Lexes (n : Network) (Ls : List (Language Char)) : Prop where
  size_eq : n.starts.size = Ls.length
  rule : ∀ (i : Nat) (L : Language Char), Ls[i]? = some L → ∃ start stop : Nat,
    n.start? i = some start ∧ n.state? stop = some ⟨stop, i, .ruleStop, []⟩ ∧
      ∀ M : Network, (∀ x : Nat, x < n.states.size → M.state? x = n.state? x) →
        M.Recognizes L start stop

namespace LexerNetwork

/-- A new rule leaves the states of the others alone. It reads the texts of its pattern between its
own two states. -/
theorem addRule_spec (l : LexerNetwork) (r : LexerRule) :
    (l.addRule r).network.starts = l.network.starts.push l.network.states.size ∧
      l.network.states.size + 2 ≤ (l.addRule r).network.states.size ∧
      (∀ x : Nat, x < l.network.states.size →
        (l.addRule r).network.state? x = l.network.state? x) ∧
      (l.addRule r).network.state? (l.network.states.size + 1) =
        some ⟨l.network.states.size + 1, l.network.ruleCount, .ruleStop, []⟩ ∧
      ∀ M : Network, (∀ x : Nat, x < (l.addRule r).network.states.size →
          M.state? x = (l.addRule r).network.state? x) →
        M.Recognizes r.pattern.language l.network.states.size (l.network.states.size + 1) := by
  obtain ⟨n, tokenTypes, commands⟩ := l
  have hstart : n.addRule.Has n.states.size [] := by
    refine ⟨⟨n.states.size, n.ruleCount, .ruleStart, []⟩, ?_, StateKind.noConfusion, rfl⟩
    rw [Network.state?_addRule, if_neg (Nat.ne_of_lt (Nat.lt_succ_self _)), if_pos rfl]
  have hsize : n.addRule.states.size = n.states.size + 2 := by
    show ((n.addState n.ruleCount .ruleStart).addState n.ruleCount .ruleStop).states.size = _
    rw [Network.size_addState, Network.size_addState]
  -- The pattern and the commands, and then the edge to the stop state.
  obtain ⟨g, hg, hspans⟩ : ∃ g, g = (r.pattern.compile n.ruleCount
      ⟨n.addRule, n.states.size⟩).runCommands n.ruleCount r.commands commands.size ∧
        Growth.Spans n.addRule n.states.size g r.pattern.language := by
    refine ⟨_, rfl, ?_⟩
    have hbuilds := (r.pattern.compile_builds n.ruleCount).comp
      (.runCommands n.ruleCount r.commands commands.size)
    rw [mul_one] at hbuilds
    exact hbuilds n.addRule n.states.size hstart
  have hgrown : (addRule ⟨n, tokenTypes, commands⟩ r).network =
      g.network.addEdge g.exit (.epsilon (n.states.size + 1)) := by
    rw [hg]
    rfl
  have hback := g.network.patched_addEdge g.exit
    (rfl : (Edge.epsilon (n.states.size + 1)).isCall = false)
  have hexit := hspans.exit_new
  have hle := hspans.patched.size_le
  have hle' := hback.size_le
  -- Old states and the stop state are touched neither by the pattern nor by the last edge.
  have hframe : ∀ x : Nat, x < n.states.size + 2 → x ≠ n.states.size →
      (g.network.addEdge g.exit (.epsilon (n.states.size + 1))).state? x =
        n.addRule.state? x := by
    intro x hx hne
    rw [hback.frame x (by omega) (by omega)]
    exact hspans.patched.frame x (by omega) hne
  rw [hgrown]
  refine ⟨?_, by show n.states.size + 2 ≤ _; omega, fun x hx => ?_, ?_, fun M hM => ?_⟩
  · rw [hback.starts_eq, hspans.patched.starts_eq]
    rfl
  · have hlt : x < n.states.size := hx
    rw [hframe x (by omega) (by omega), Network.state?_addRule, if_neg (by omega),
      if_neg (by omega)]
  · show (g.network.addEdge g.exit (.epsilon (n.states.size + 1))).state? (n.states.size + 1) = _
    rw [hframe _ (by omega) (by omega), Network.state?_addRule, if_pos rfl]
  · have hpattern := hspans.recognizes M fun x _ hlt hne => by
      rw [hM x (Nat.lt_of_lt_of_le hlt hle')]
      exact hback.frame x hlt hne
    have hend : M.Has g.exit [.epsilon (n.states.size + 1)] :=
      (Network.has_addEdge rfl hspans.exit_has).of_state?_eq
        (hM _ (Nat.lt_of_lt_of_le hspans.exit_has.lt hle'))
    exact mul_one r.pattern.language ▸ hpattern.trans (.move hend rfl)

/-- A new rule reads its language, and the others still read theirs. -/
theorem addRule_lexes {l : LexerNetwork} {Ls : List (Language Char)} (h : l.network.Lexes Ls)
    (r : LexerRule) : (l.addRule r).network.Lexes (Ls ++ [r.pattern.language]) := by
  obtain ⟨hstarts, hsize, hold, hstop, hreads⟩ := l.addRule_spec r
  have hcount : l.network.starts.size = Ls.length := h.size_eq
  refine ⟨by rw [hstarts, Array.size_push, hcount, List.length_append]; rfl, fun i L hL => ?_⟩
  rcases Nat.lt_or_ge i Ls.length with hi | hi
  · rw [List.getElem?_append_left hi] at hL
    obtain ⟨start, stop, hfirst, hlast, hreads'⟩ := h.rule i L hL
    refine ⟨start, stop, ?_, ?_, fun M hM => hreads' M fun x hx => ?_⟩
    · rw [Network.start?, hstarts, Array.getElem?_push, if_neg (by omega)]
      exact hfirst
    · rw [hold stop (Network.state?_lt hlast), hlast]
    · rw [hM x (by omega), hold x hx]
  · rw [List.getElem?_append_right hi, List.getElem?_singleton] at hL
    split at hL
    · rename_i hzero
      obtain rfl : i = Ls.length := by omega
      cases hL
      refine ⟨l.network.states.size, l.network.states.size + 1, ?_, ?_, hreads⟩
      · rw [Network.start?, hstarts, Array.getElem?_push, if_pos hcount.symm]
      · rw [hstop, Network.ruleCount, hcount]
    · cases hL

/-- The rules of a lexer read the texts of their patterns. -/
theorem ofRules_lexes (rules : List LexerRule) :
    (ofRules rules).network.Lexes (rules.map fun r => r.pattern.language) := by
  -- Rules are added to a network that may have rules, so that the induction goes through.
  suffices hfold : ∀ (rules : List LexerRule) (l : LexerNetwork) (Ls : List (Language Char)),
      l.network.Lexes Ls → (rules.foldl addRule l).network.Lexes
        (Ls ++ rules.map fun r => r.pattern.language) by
    refine hfold rules empty [] ⟨rfl, fun i L hL => ?_⟩
    cases hL
  intro rules
  induction rules with
  | nil =>
      intro l Ls h
      simpa using h
  | cons r rules ih =>
      intro l Ls h
      have hrest := ih _ _ (addRule_lexes h r)
      rwa [List.append_assoc] at hrest

end LexerNetwork

end Caret
