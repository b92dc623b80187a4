import Caret.Proofs.Pushdown
import Caret.Proofs.Renaming
import Caret.Proofs.Validity
import Caret.Proofs.Wiring

/-!
# `Caret.Proofs.Relabelling`: compiling does not look at labels

The compiler puts the labels of a grammar on the edges that read and does not look at them. So it
makes no difference whether labels are replaced in the rules or in the network of the rules
(`Network.relabel_ofRules`).

This carries facts about the shape of networks over to rules with any labels at all, also those that
stand for no set of token types. Replacing labels keeps which states follow calls and which are
entered within a rule.
-/

set_option autoImplicit false

namespace Caret

/-! ### Replacing labels -/

/-- The edge with another label, if it reads. -/
def Edge.relabel (f : Label → Label) : Edge → Edge
  | .read target label => .read target (f label)
  | e => e

/-- The state with other labels on its edges. -/
def State.relabel (f : Label → Label) (s : State) : State :=
  { s with edges := s.edges.map (Edge.relabel f) }

/-- The network with other labels on its edges. -/
def Network.relabel (f : Label → Label) (n : Network) : Network :=
  { n with states := n.states.map (State.relabel f) }

/-- The network under construction with other labels on its edges. -/
def Growth.relabel (f : Label → Label) (g : Growth) : Growth := ⟨g.network.relabel f, g.exit⟩

/-- The rule with other labels as its terminals. -/
def Rule.relabel (f : Label → Label) (r : Rule Label RuleIndex) : Rule Label RuleIndex :=
  ⟨r.name, r.body.map f id⟩

section

variable (f : Label → Label)

namespace Edge

/-- A label says what is read and not where the edge leads. -/
@[simp] theorem target_relabel (e : Edge) : (e.relabel f).target = e.target := by
  cases e <;> rfl

/-- Only edges that read have labels, and those pass nothing. -/
@[simp] theorem passes_relabel (e : Edge) : (e.relabel f).passes = e.passes := by
  cases e <;> rfl

/-- An edge with a label is no call. -/
@[simp] theorem isCall_relabel (e : Edge) : (e.relabel f).isCall = e.isCall := by
  cases e <;> rfl

end Edge

/-! ### Building with other labels -/

namespace Network

variable (n : Network) (a : Nat) (rule : RuleIndex) (kind : StateKind)

/-- There are as many states. -/
@[simp] theorem size_relabel : (n.relabel f).states.size = n.states.size := by
  simp [relabel]

/-- So the next state gets the same number. This is what makes the two ways of building agree: the
compiler writes the numbers of new states into its edges. -/
@[simp] theorem nextId_relabel : (n.relabel f).nextId = n.nextId := n.size_relabel f

/-- Start states are kept. -/
@[simp] theorem start?_relabel (r : RuleIndex) : (n.relabel f).start? r = n.start? r := rfl

/-- Stop states are kept. -/
@[simp] theorem stop?_relabel (r : RuleIndex) : (n.relabel f).stop? r = n.stop? r := rfl

/-- States are found under the same numbers, with their new labels. -/
theorem state?_relabel : (n.relabel f).state? a = (n.state? a).map (State.relabel f) := by
  simp [relabel, state?]

/-- A new state has no edges, hence no labels. -/
theorem relabel_addState : (n.addState rule kind).relabel f = (n.relabel f).addState rule kind := by
  simp [relabel, addState, nextId, State.relabel]

/-- An edge is put behind the others with its new label. -/
theorem relabel_attach (e : Edge) :
    (n.attach a e).relabel f = (n.relabel f).attach a (e.relabel f) := by
  have hstates : (n.attach a e).states.map (State.relabel f) =
      ((n.relabel f).attach a (e.relabel f)).states := by
    -- The two tables are compared state by state. Only one of them gets the edge.
    refine Array.ext_getElem? fun b => ?_
    simp only [attach, relabel, Array.getElem?_map, Array.getElem?_modify]
    split
    · simp [State.relabel, Function.comp_def]
    · rfl
  rw [relabel, hstates]
  rfl

/-- The same with the edge that returns from a call. It has no label. -/
theorem relabel_addEdge (e : Edge) :
    (n.addEdge a e).relabel f = (n.relabel f).addEdge a (e.relabel f) := by
  cases e with
  | call target callee follow level =>
      simp only [addEdge, Edge.relabel, stop?_relabel]
      cases n.stop? callee with
      | none => exact n.relabel_attach f a _
      | some stop =>
          simp only
          rw [relabel_attach, relabel_attach]
          rfl
  | _ => exact n.relabel_attach f a _

/-- Moving on to a new state has nothing to do with labels. -/
theorem relabel_link : (n.link rule a kind).relabel f = (n.relabel f).link rule a kind := by
  simp only [link, Growth.relabel, relabel_addEdge, relabel_addState, nextId_relabel]
  rfl

/-- Reading a symbol is the one place where the compiler uses a label. It may as well use the new
one. -/
theorem relabel_read (l : Label) :
    (n.read rule a l).relabel f = (n.relabel f).read rule a (f l) := by
  simp only [read, Growth.relabel, relabel_addEdge, relabel_addState, nextId_relabel]
  rfl

/-- A call needs to know the start state of its rule, which is kept. -/
theorem relabel_call (callee : RuleIndex) (level : Int) :
    (n.call rule a callee level).relabel f = (n.relabel f).call rule a callee level := by
  -- Neither the new state nor other labels change where rules start.
  have hstart : ((n.relabel f).addState rule .basic).start? callee =
      (n.addState rule .basic).start? callee := rfl
  simp only [call, hstart, nextId_relabel]
  cases (n.addState rule .basic).start? callee with
  | none => simp only [Growth.relabel, relabel_addState]
  | some start =>
      simp only [Growth.relabel, relabel_addEdge, relabel_addState]
      rfl

/-- A decision has two edges that just move on, in either order. -/
theorem relabel_decide (d i o : Nat) (greedy : Bool) :
    (n.decide d i o greedy).relabel f = (n.relabel f).decide d i o greedy := by
  cases greedy with
  | true => simp [decide, choose, relabel_addEdge, Edge.relabel]
  | false => simp [decide, choose, relabel_addEdge, Edge.relabel]

/-- The same for the three states that an optional or repeated part begins with. -/
theorem relabel_branch (greedy : Bool) :
    (n.branch rule a greedy).relabel f = (n.relabel f).branch rule a greedy := by
  simp [branch, relabel_decide, relabel_addEdge, relabel_addState, Edge.relabel]

end Network

open Network

/-! ### Compiling -/

variable (rule : RuleIndex)

mutual

/-- Replacing labels and compiling an expression can be done in either order. -/
theorem Expr.relabel_compile : ∀ (e : Expr Label RuleIndex) (g : Growth),
    (e.compile rule g).relabel f = (e.map f id).compile rule (g.relabel f)
  | .terminal l, ⟨n, a⟩ => n.relabel_read f a rule l
  | .rule callee, ⟨n, a⟩ => n.relabel_call f a rule callee 0
  | .empty, _ => rfl
  | .seq es, g => Expr.relabel_compileSeq es g
  | .alt es, ⟨n, a⟩ => by
      -- The decision is added in front of the branches, and it has no label.
      have hlink : (n.link rule a .decision).network.relabel f =
          ((n.relabel f).link rule a .decision).network :=
        congrArg Growth.network (n.relabel_link f a rule .decision)
      show Growth.relabel f _ = (Expr.alt (Expr.mapList f id es)).compile rule ⟨n.relabel f, a⟩
      rw [compile_alt, compile_alt, size_relabel, Growth.relabel, Expr.relabel_compileAlt,
        relabel_addState, hlink]
  | .optional body greedy, ⟨n, a⟩ => by
      have hbody := Expr.relabel_compile body ⟨n.branch rule a greedy, n.states.size + 1⟩
      rw [Growth.relabel, Growth.relabel, relabel_branch] at hbody
      show Growth.relabel f _ = (Expr.optional (body.map f id) greedy).compile rule ⟨n.relabel f, a⟩
      rw [compile_optional, compile_optional, size_relabel, ← hbody, Growth.relabel,
        relabel_addEdge]
      rfl
  | .star body greedy, ⟨n, a⟩ => by
      have hbody := Expr.relabel_compile body ⟨n.branch rule a greedy, n.states.size + 1⟩
      rw [Growth.relabel, Growth.relabel, relabel_branch] at hbody
      show Growth.relabel f _ = (Expr.star (body.map f id) greedy).compile rule ⟨n.relabel f, a⟩
      rw [compile_star, compile_star, size_relabel, ← hbody, Growth.relabel, relabel_addEdge]
      rfl
  | .plus body greedy, ⟨n, a⟩ => by
      have hbody := Expr.relabel_compile body (n.link rule a .basic)
      rw [relabel_link] at hbody
      -- The decision comes behind the body, so its number depends on the size of the body.
      show Growth.relabel f _ = (Expr.plus (body.map f id) greedy).compile rule ⟨n.relabel f, a⟩
      rw [compile_plus (g := body.compile rule (n.link rule a .basic)) rule n a body greedy rfl,
        compile_plus rule (n.relabel f) a (body.map f id) greedy hbody.symm]
      generalize body.compile rule (n.link rule a .basic) = g
      have hlink : (g.network.link rule g.exit .decision).network.relabel f =
          ((g.network.relabel f).link rule g.exit .decision).network :=
        congrArg Growth.network (g.network.relabel_link f g.exit rule .decision)
      simp only [Growth.relabel, relabel_decide, relabel_addState, hlink, size_relabel]

/-- The same for the parts of a sequence, each from where the one before it ends. -/
theorem Expr.relabel_compileSeq : ∀ (es : List (Expr Label RuleIndex)) (g : Growth),
    (Expr.compileSeq rule es g).relabel f =
      Expr.compileSeq rule (Expr.mapList f id es) (g.relabel f)
  | [], _ => rfl
  | e :: es, g => by
      rw [Expr.compileSeq, Expr.relabel_compileSeq es, Expr.relabel_compile e]
      rfl

/-- The same for the branches of a choice, which all end in one state. -/
theorem Expr.relabel_compileAlt : ∀ (es : List (Expr Label RuleIndex)) (d join : Nat)
    (n : Network), (Expr.compileAlt rule d join es n).relabel f =
      Expr.compileAlt rule d join (Expr.mapList f id es) (n.relabel f)
  | [], _, _, _ => rfl
  | e :: es, d, join, n => by
      -- Each branch begins at a state of its own behind the decision.
      have hbody := Expr.relabel_compile e (n.link rule d .basic)
      rw [relabel_link] at hbody
      rw [Expr.mapList, Expr.compileAlt, Expr.compileAlt, Expr.relabel_compileAlt es,
        relabel_addEdge, ← hbody]
      rfl

end

/-- Replacing labels and compiling operators can be done in either order. -/
theorem Expr.relabel_compileOperators : ∀ (es : List (Expr Label RuleIndex)) (entry : Nat)
    (level : Int) (n : Network), (Expr.compileOperators rule entry es level n).relabel f =
      Expr.compileOperators rule entry (Expr.mapList f id es) level (n.relabel f)
  | [], _, _, _ => rfl
  | e :: es, entry, level, n => by
      -- An operator begins behind its gate, which tests a level and reads nothing.
      have hgated : (⟨((n.relabel f).addState rule .basic).addEdge entry (.gate n.nextId level),
          n.nextId⟩ : Growth) =
            Growth.relabel f ⟨(n.addState rule .basic).addEdge entry (.gate n.nextId level),
              n.nextId⟩ := by
        rw [Growth.relabel, relabel_addEdge, relabel_addState]
        rfl
      simp only [Expr.mapList, Expr.compileOperators, nextId_relabel]
      rw [hgated, ← e.relabel_compile f rule]
      generalize e.compile rule _ = operator
      -- Behind the operator comes the call of its operand.
      have hoperand : (operator.relabel f).network.call rule (operator.relabel f).exit rule
          (level + 1) = (operator.network.call rule operator.exit rule (level + 1)).relabel f :=
        (relabel_call f operator.network operator.exit rule rule (level + 1)).symm
      rw [hoperand, Expr.relabel_compileOperators es, relabel_addEdge]
      rfl

/-- The same for the body of a rule, with its operators. -/
theorem Body.relabel_compile (body : Body Label RuleIndex) (g : Growth) :
    (body.compile rule g).relabel f = (body.map f id).compile rule (g.relabel f) := by
  cases body with
  | plain e => exact e.relabel_compile f rule g
  | precedence primaries operators =>
      have hprimary := (Expr.alt primaries).relabel_compile f rule g
      have hlength : (Expr.mapList f id operators).length = operators.length := by
        rw [Expr.mapList_eq_map, List.length_map]
      show _ = (Body.precedence (Expr.mapList f id primaries) (Expr.mapList f id operators)).compile
        rule (g.relabel f)
      simp only [Body.compile]
      rw [show Expr.alt (Expr.mapList f id primaries) = (Expr.alt primaries).map f id from rfl,
        ← hprimary, hlength]
      generalize (Expr.alt primaries).compile rule g = primary
      -- Behind the primary comes the decision that the operators start from.
      have hentry : (primary.network.link rule primary.exit .decision).relabel f =
          (primary.relabel f).network.link rule (primary.relabel f).exit .decision :=
        relabel_link f primary.network primary.exit rule .decision
      rw [← hentry, relabel_link, Expr.relabel_compileOperators]
      rfl

namespace Network

/-- The states of a new rule have no edges. -/
theorem relabel_addRule (n : Network) : n.addRule.relabel f = (n.relabel f).addRule := by
  simp [addRule, relabel, addState, nextId, ruleCount, State.relabel]

/-- Filling in the body of a rule. -/
theorem relabel_addBody (n : Network) (r : RuleIndex) (body : Body Label RuleIndex) :
    (n.addBody r body).relabel f = (n.relabel f).addBody r (body.map f id) := by
  simp only [addBody, start?_relabel, stop?_relabel]
  -- For a number without a rule nothing is added on either side.
  cases n.start? r with
  | none => rfl
  | some start =>
      cases n.stop? r with
      | none => rfl
      | some stop =>
          have hbody := body.relabel_compile f r ⟨n, start⟩
          show Network.relabel f (Network.addEdge _ _ _) = _
          rw [relabel_addEdge]
          simp only
          rw [show (⟨n.relabel f, start⟩ : Growth) = Growth.relabel f ⟨n, start⟩ from rfl, ← hbody]
          rfl

/-- Filling in the bodies of all rules, one after the other. -/
theorem relabel_addBodies (rules : List (Rule Label RuleIndex)) (n : Network) (r : RuleIndex) :
    (n.addBodies r rules).relabel f = (n.relabel f).addBodies r (rules.map (Rule.relabel f)) := by
  induction rules generalizing n r with
  | nil => rfl
  | cons first rest ih =>
      rw [List.map_cons, addBodies, addBodies, ih, relabel_addBody]
      rfl

/-- Labels can be replaced in the rules or in the network of the rules. -/
theorem relabel_ofRules (rules : List (Rule Label RuleIndex)) (max : TokenType) :
    (ofRules rules max).relabel f = ofRules (rules.map (Rule.relabel f)) max := by
  -- Before the bodies are filled in there are no labels.
  have hblank : ∀ k, (Nat.repeat Network.addRule k (empty max)).relabel f =
      Nat.repeat Network.addRule k (empty max) := by
    intro k
    induction k with
    | zero => simp [Nat.repeat, empty, relabel]
    | succ k ih =>
        rw [Nat.repeat]
        nth_rewrite 2 [← ih]
        exact relabel_addRule f _
  rw [ofRules, ofRules, relabel_addBodies, hblank, List.length_map]

/-! ### What labels have no part in -/

variable {f : Label → Label} {n : Network}

/-- A state is found with its new labels. -/
theorem state?_relabel_of {a : Nat} {s : State} (h : n.state? a = some s) :
    (n.relabel f).state? a = some (s.relabel f) := by
  rw [state?_relabel, h]
  rfl

/-- Calls go on at the same states, as calls are kept. -/
theorem isFollow_relabel {b : Nat} (h : n.IsFollow b) : (n.relabel f).IsFollow b := by
  obtain ⟨a, s, hs, target, rule, level, hmem⟩ := h
  exact ⟨a, s.relabel f, state?_relabel_of hs, target, rule, level, List.mem_map_of_mem hmem⟩

/-- Edges that pass are kept, so the same states are passed. -/
theorem isPassed_relabel {b : Nat} (h : n.IsPassed b) : (n.relabel f).IsPassed b := by
  obtain ⟨a, s, hs, hkind, e, he, hpasses, htarget⟩ := h
  exact ⟨a, s.relabel f, state?_relabel_of hs, hkind, e.relabel f, List.mem_map_of_mem he,
    by simpa using hpasses, by simpa using htarget⟩

/-- What keeps the states apart has nothing to do with labels. This direction is the useful one: the
labels can be chosen so that the network is known to be tidy. -/
theorem Apart.of_relabel (h : (n.relabel f).Apart) : n.Apart where
  follow_unpassed b hb hpassed :=
    h.follow_unpassed b (isFollow_relabel hb) (isPassed_relabel hpassed)
  target_unpassed a s hs e he hcall hlt hpassed := by
    refine h.target_unpassed a _ (state?_relabel_of hs) (e.relabel f) (List.mem_map_of_mem he)
      ?_ ?_ ?_
    · simpa using hcall
    · simpa using hlt
    · simpa using isPassed_relabel hpassed

end Network

end

/-- With no tokens to read, the pushdown system makes the same steps whatever the labels are. -/
theorem Configuration.Step.of_relabel {f : Label → Label} {n : Network} {c d : Configuration}
    (h : c.Step (n.relabel f) [] d) : c.Step n [] d := by
  obtain ⟨e, c', hdeparts, hlt, halong⟩ := h
  -- The edge is there with its own label, and it does not read.
  have hedge : ∃ e', e'.relabel f = e ∧ c.Departs n e' c' := by
    cases hdeparts with
    | @inside state _ hstate hkind he =>
        rw [Network.state?_relabel] at hstate
        obtain ⟨state', hstate', rfl⟩ := Option.map_eq_some_iff.mp hstate
        obtain ⟨e', he', rfl⟩ := List.mem_map.mp he
        exact ⟨e', rfl, .inside hstate' hkind he'⟩
    | @leaving state _ rule b level callers hstate hkind hcalls he htarget =>
        rw [Network.state?_relabel] at hstate
        obtain ⟨state', hstate', rfl⟩ := Option.map_eq_some_iff.mp hstate
        obtain ⟨e', he', rfl⟩ := List.mem_map.mp he
        rw [Edge.target_relabel] at htarget
        exact ⟨e', rfl, .leaving hstate' hkind hcalls he' htarget⟩
  obtain ⟨e', rfl, hdeparts'⟩ := hedge
  rw [Edge.target_relabel, Network.size_relabel] at hlt
  refine ⟨e', c', hdeparts', hlt, ?_⟩
  -- Only an edge that reads looks at its label, and there is nothing to read.
  cases e' with
  | epsilon t =>
      cases halong
      exact .epsilon t
  | command t k =>
      cases halong
      exact .command t k
  | gate t level =>
      cases halong with
      | gate _ hlevel => exact .gate t hlevel
  | call t rule b level =>
      cases halong
      exact .call t rule b level
  | read t l =>
      cases halong with
      | read _ ha _ => simp at ha

/-! ### Rules with other labels -/

section Rules

variable (f : Label → Label)

/-- Labels play no part in front of the first token. -/
theorem alikeInFront_relabel (rules : List (Rule Label RuleIndex)) :
    AlikeInFront rules (rules.map (Rule.relabel f)) := by
  refine List.forall₂_map_right_iff.mpr (List.forall₂_same.mpr fun rule _ => ?_)
  exact Body.alikeInFront_of_resolves (fun _ _ hr => hr) (rule.body.resolves_map f id)

variable {f} {b : Body Label RuleIndex}

/-- Only the labels change, so the references stay in range. -/
theorem Body.fits_map {u : Universe} {count : Nat} (hf : ∀ l, (f l).Proper u)
    (h : ∀ e ∈ b.exprs, ∀ r, .rule r ∈ e.nodes → r < count) :
    (b.map f id).Fits (Label.Proper u) (· < count) := by
  refine Body.fits_of_exprs fun e' he' => ?_
  rw [Body.exprs_map] at he'
  obtain ⟨e, he, rfl⟩ := List.mem_map.mp he'
  refine Expr.fits_of_nodes ?_ ?_
  · intro l' hl'
    -- A terminal of the new expression stands in the place of an old one.
    obtain ⟨x, -, hresolves⟩ := (e.resolves_map f id).exists_node _ hl'
    cases hresolves with
    | @terminal l _ heq =>
        rw [← heq]
        exact hf l
  · intro r' hr'
    obtain ⟨x, hx, hresolves⟩ := (e.resolves_map f id).exists_node _ hr'
    cases hresolves with
    | @rule r _ heq =>
        rw [← heq]
        exact h e he r hx

/-- Replacing labels makes no empty choices. -/
theorem Body.not_mem_nodes_map (h : ∀ e ∈ b.exprs, .alt [] ∉ e.nodes) :
    ∀ e' ∈ (b.map f id).exprs, .alt [] ∉ e'.nodes := by
  intro e' he' hmem
  rw [Body.exprs_map] at he'
  obtain ⟨e, he, rfl⟩ := List.mem_map.mp he'
  obtain ⟨x, hx, hresolves⟩ := (e.resolves_map f id).exists_node _ hmem
  cases hresolves with
  | altNil => exact h e he hx

end Rules

end Caret
