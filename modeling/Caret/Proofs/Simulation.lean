import Caret.Proofs.Exploration
import Caret.Proofs.Grounding

/-!
# `Caret.Proofs.Simulation`: exploring a network is searching a grammar

A network that is made of the pieces of a grammar is explored like the grammar is searched. Where
the search through a phrase has the outcomes `os`, the exploration of its piece has the outputs
`emitted calls K os`: a report is a candidate below the open calls, and each time the phrase is read
to its end, the exploration goes on behind the piece. What it puts out there is `K`.

`Enumerates.simulates` proves this for all phrases, by induction on the search.
-/

set_option autoImplicit false

namespace Caret

/-- The rules that are open, outermost first. -/
def chainOf (calls : List Call) : Chain := (calls.map Call.rule).reverse

/-- The precedence level of the innermost call. -/
def levelOf (calls : List Call) : Int := (calls.head?.map Call.level).getD 0

/-- The position at a state with the tokens `v` of `w` still to be read. -/
def spot (w v : List TokenType) (a : Nat) (calls : List Call) : Position :=
  ⟨a, w.length - v.length, [], calls, 0⟩

/-- What an exploration puts out below some calls, if it puts out `K` each time a phrase is read. -/
def emitted (calls : List Call) (K : List TokenType → List Effect) (os : List Outcome) :
    List Effect :=
  os.flatMap fun
    | .report id chain => [.report ⟨id, [chainOf calls ++ chain]⟩]
    | .done u => K u

section

open Outcome

variable (calls : List Call) (K : List TokenType → List Effect)

/-- No outcomes, no outputs. -/
@[simp] theorem emitted_nil : emitted calls K [] = [] := rfl

/-- A phrase that is read goes on with what comes behind. -/
@[simp] theorem emitted_done (u : List TokenType) : emitted calls K [.done u] = K u := by
  simp [emitted]

/-- Outcomes are put out in order. -/
@[simp] theorem emitted_append (os os' : List Outcome) :
    emitted calls K (os ++ os') = emitted calls K os ++ emitted calls K os' := by
  simp [emitted]

/-- Reports become candidates below the open calls. -/
@[simp] theorem emitted_map_report {α : Type} (xs : List α) (id : α → SuggestionId)
    (chain : α → Chain) : emitted calls K (xs.map fun x => .report (id x) (chain x)) =
      xs.map fun x => .report ⟨id x, [chainOf calls ++ chain x]⟩ := by
  simp only [emitted, List.flatMap_map]
  induction xs with
  | nil => rfl
  | cons x xs ih => simp [ih]

/-- Behind a phrase the next one is explored. -/
theorem emitted_andThen (os : List Outcome) (f : List TokenType → List Outcome) :
    emitted calls K (andThen os f) = emitted calls (fun u => emitted calls K (f u)) os := by
  simp only [emitted, andThen, List.flatMap_assoc]
  refine List.flatMap_congr fun o _ => ?_
  cases o with
  | report id chain => simp
  | done u => rfl

/-- The rule that is entered is the innermost of the open ones. -/
theorem emitted_within (r : RuleIndex) (follow : Option StateId) (level : Int)
    (os : List Outcome) :
    emitted calls K (os.map (within r)) = emitted (⟨r, follow, level⟩ :: calls) K os := by
  simp only [emitted, List.flatMap_map]
  refine List.flatMap_congr fun o _ => ?_
  cases o with
  | report id chain => simp [within, chainOf]
  | done u => rfl

end

/-! ### Tokens -/

/-- What comes first: a token, or the caret if no token is left. -/
def Lookahead.first : List TokenType → Lookahead
  | [] => .caret
  | t :: _ => .token t

/-- The next token of the stream is the first of those that are left. -/
theorem lookahead_of_suffix {w v : List TokenType} (h : v <:+ w) :
    (TokenStream.mk w.toArray).lookahead (w.length - v.length) = some (.first v) := by
  obtain ⟨read, rfl⟩ := h
  have hindex : (read ++ v).length - v.length = read.length := by simp
  rw [hindex, TokenStream.lookahead]
  cases v with
  | nil => simp [TokenStream.caret, Lookahead.first]
  | cons t v => simp [Lookahead.first]

/-- The position is at the caret if no token is left. -/
theorem caret_iff_of_suffix {w v : List TokenType} (h : v <:+ w) :
    w.length - v.length = (TokenStream.mk w.toArray).caret ↔ v = [] := by
  have hle := h.length_le
  have hcaret : (TokenStream.mk w.toArray).caret = w.length := by simp [TokenStream.caret]
  rw [hcaret, ← List.length_eq_zero_iff]
  omega

/-- Behind a token there is one token less to read. -/
theorem bare_advance_spot {w v : List TokenType} {t : TokenType} (h : t :: v <:+ w) (a b : Nat)
    (calls : List Call) : ((spot w (t :: v) a calls).advance b).bare = spot w v b calls := by
  have hle := h.length_le
  have hindex : w.length - (t :: v).length + 1 = w.length - v.length := by
    rw [List.length_cons] at hle ⊢
    omega
  simp only [spot, Position.advance, Position.bare, hindex]

/-! ### One state -/

section Explore

variable {s : Setting} {w v : List TokenType} {a b : Nat} {calls : List Call}

/-- A state within a rule is explored along its edges. -/
theorem explore_spot {edges : List Edge} (h : s.network.Leads a edges) :
    s.explore (spot w v a calls) = s.followAll (spot w v a calls) false edges := by
  obtain ⟨⟨state, hstate, hkind, rfl⟩, -⟩ := h
  exact explore_inside hstate hkind

/-- States below the size are there. -/
theorem isNone_of_lt {t : Nat} (h : t < s.network.states.size) :
    ¬ (s.network.state? t).isNone = true := by
  simp [Network.state?, h]

/-- Whether an edge lets a rule through that was entered at this level. -/
def Edge.admitsLevel (level : Int) : Edge → Bool
  | .gate _ l => !decide (l < level)
  | _ => true

variable (w v a calls) in
/-- The edges within a rule are followed as far as their gates are open. -/
theorem followAll_passes (edges : List Edge) (hpasses : ∀ e ∈ edges, e.passes = true)
    (htargets : ∀ e ∈ edges, e.target < s.network.states.size) :
    ∃ effects, s.followAll (spot w v a calls) false edges = .ok effects ∧
      (∀ e ∈ effects, e.isGuard = false) ∧ outputs effects = [] ∧
      (visits effects).map Position.bare =
        (edges.filter (Edge.admitsLevel (levelOf calls))).map fun e => spot w v e.target calls := by
  induction edges with
  | nil => exact ⟨[], rfl, by simp, rfl, rfl⟩
  | cons e edges ih =>
      obtain ⟨later, hlater, hguards, houtputs, hvisits⟩ := ih
        (fun e' he' => hpasses e' (List.mem_cons_of_mem _ he'))
        (fun e' he' => htargets e' (List.mem_cons_of_mem _ he'))
      have hnone := isNone_of_lt (htargets e (by simp))
      -- Nothing was passed at this spot yet.
      have hpass : Setting.pass (spot w v a calls) false e.target =
          [.visit ((spot w v a calls).pass e.target)] := if_neg (by simp [spot])
      have hopen : e.admitsLevel (levelOf calls) = true → s.follow (spot w v a calls) false e =
          .ok [.visit ((spot w v a calls).pass e.target)] := by
        intro hadmits
        rw [← hpass]
        cases e with
        | epsilon t => exact if_neg hnone
        | command t index => exact if_neg hnone
        | gate t level =>
            have hlevel : ¬ level < levelOf calls := by
              simpa [Edge.admitsLevel] using hadmits
            exact (if_neg hnone).trans (congrArg Except.ok (if_neg hlevel))
        | call t rule f level => cases hpasses _ List.mem_cons_self
        | read t label => cases hpasses _ List.mem_cons_self
      by_cases hadmits : e.admitsLevel (levelOf calls) = true
      · refine ⟨_, followAll_cons_ok hlater (hopen hadmits), ?_, by simp [houtputs], ?_⟩
        · intro e' he'
          rcases List.mem_append.mp he' with he' | he'
          · exact hguards e' he'
          · rw [List.mem_singleton.mp he']
            rfl
        · rw [List.filter_cons_of_pos hadmits, List.map_cons, visits_append, List.map_append,
            hvisits]
          rfl
      · -- Only a gate can be closed.
        have hclosed : s.follow (spot w v a calls) false e = .ok [] := by
          cases e with
          | gate t level =>
              have hlevel : level < levelOf calls := by
                simpa [Edge.admitsLevel] using hadmits
              exact (if_neg hnone).trans (congrArg Except.ok (if_pos hlevel))
          | _ => exact absurd rfl hadmits
        refine ⟨_, followAll_cons_ok hlater hclosed, by simpa using hguards,
          by simp [houtputs], ?_⟩
        rw [List.filter_cons_of_neg hadmits, List.append_nil, hvisits]

/-- Exploring a state with edges within the rule explores their targets in order. -/
theorem Settles.of_passes {edges : List Edge} {outs : List Effect} (h : s.network.Leads a edges)
    (hpasses : ∀ e ∈ edges, e.passes = true)
    (hrest : Settles s ((edges.filter (Edge.admitsLevel (levelOf calls))).map fun e =>
      spot w v e.target calls) outs) : Settles s [spot w v a calls] outs := by
  obtain ⟨effects, heffects, hguards, houtputs, hvisits⟩ :=
    followAll_passes w v a calls edges hpasses h.2
  have hexplore := (explore_spot h).trans heffects
  have hsettles := Settles.single hexplore hguards (hvisits ▸ hrest)
  rw [houtputs] at hsettles
  exact hsettles

/-- An edge that just moves on. -/
theorem Settles.of_epsilon {outs : List Effect} (h : s.network.Leads a [.epsilon b])
    (hrest : Settles s [spot w v b calls] outs) : Settles s [spot w v a calls] outs :=
  .of_passes h (by simp [Edge.passes]) hrest

/-- A state with one edge is explored along this edge. -/
theorem explore_single {e : Edge} {effects : List Effect} (h : s.network.Leads a [e])
    (hfollow : s.follow (spot w v a calls) false e = .ok effects) :
    s.explore (spot w v a calls) = .ok effects := by
  have hnil : s.followAll (spot w v a calls) false [] = .ok [] := rfl
  rw [explore_spot h, followAll_cons_ok hnil hfollow, List.nil_append]

/-- At the caret every symbol of a label is a candidate. In front of a token the way goes on if the
label admits the token. -/
theorem Settles.of_read {l : Label} {K : List TokenType → List Effect}
    (hstream : s.stream = ⟨w.toArray⟩) (hv : v <:+ w) (hl : l.Proper s.network.alphabet)
    (h : s.network.Leads a [.read b l])
    (hK : ∀ u, .done u ∈ Outcome.ofSymbols (l.values s.network.alphabet) v →
      Settles s [spot w u b calls] (K u)) :
    Settles s [spot w v a calls]
      (emitted calls K (Outcome.ofSymbols (l.values s.network.alphabet) v)) := by
  have hb : b < s.network.states.size := h.2 (.read b l) (by simp)
  have hfollow : s.follow (spot w v a calls) false (.read b l) =
      s.read (spot w v a calls) (.read b l) := if_neg (isNone_of_lt hb)
  have hlook := lookahead_of_suffix hv
  rw [← hstream] at hlook
  have hindex : (spot w v a calls).index = w.length - v.length := rfl
  obtain ⟨set, hset, hvalues⟩ := hl.symbols_eq
  -- At the caret the symbols are listed. In front of a token it is looked up among them.
  cases v with
  | nil =>
      have hread : s.read (spot w [] a calls) (.read b l) =
          .ok (set.toList.map fun t => .report ⟨.token t, [chainOf calls]⟩) := by
        simp only [Setting.read, hindex, hlook, Lookahead.first, Edge.symbols?_read, hset]
        rfl
      have hsettles := Settles.single (explore_single h (hfollow.trans hread))
        (by simp [Effect.isGuard]) (by rw [visits_map_report]; exact .nil)
      rw [outputs_map_report, List.append_nil, hvalues] at hsettles
      simpa [Outcome.ofSymbols] using hsettles
  | cons t v =>
      have hread : s.read (spot w (t :: v) a calls) (.read b l) =
          .ok (if l.admits s.network.alphabet t then
            [.visit ((spot w (t :: v) a calls).advance b)] else []) := by
        simp only [Setting.read, hindex, hlook, Lookahead.first]
        rfl
      by_cases hadmits : l.admits s.network.alphabet t = true
      · have hmem := (hl.admits_iff t).mp hadmits
        rw [if_pos hadmits] at hread
        rw [Outcome.ofSymbols, if_pos hmem] at hK ⊢
        have hnext := hK v (by simp)
        rw [← bare_advance_spot hv a b calls] at hnext
        have hsettles := Settles.single (explore_single h (hfollow.trans hread))
          (by simp [Effect.isGuard]) (by simpa using hnext)
        simpa using hsettles
      · have hmem : t ∉ l.values s.network.alphabet := fun hmem =>
          hadmits ((hl.admits_iff t).mpr hmem)
        rw [if_neg hadmits] at hread
        rw [Outcome.ofSymbols, if_neg hmem]
        exact Settles.single (explore_single h (hfollow.trans hread)) (by simp) .nil

/-- At the stop state of a rule that was called, the caller goes on. -/
theorem Settles.of_return {r : RuleIndex} {stop f : Nat} {level : Int} {outs : List Effect}
    (hstop : s.network.stop? r = some stop) (h : s.network.Returns r f)
    (hrest : Settles s [spot w v f calls] outs) :
    Settles s [spot w v stop (⟨r, some f, level⟩ :: calls)] outs := by
  obtain ⟨hlt, stop', state, hstop', hstate, hkind, hedges⟩ := h
  obtain rfl := Option.some.inj (hstop.symm.trans hstop')
  -- The stop state has one edge to the follow state.
  have hexplore := explore_return (p := spot w v stop (⟨r, some f, level⟩ :: calls)) hstate hkind
    rfl (by simp [spot]) hlt (by rw [hedges]; simp)
  rw [hedges] at hexplore
  exact Settles.single hexplore (by simp [Effect.isGuard]) hrest

/-- Two ways on, the preferred one first. -/
theorem Settles.of_ways {greedy : Bool} {d i : Nat} {inside outside : List Effect}
    (h : s.network.Leads d (Network.ways greedy i b))
    (hinside : Settles s [spot w v i calls] inside)
    (houtside : Settles s [spot w v b calls] outside) :
    Settles s [spot w v d calls] (if greedy then inside ++ outside else outside ++ inside) := by
  cases greedy with
  | true => exact .of_passes h (by simp [Network.ways, Edge.passes]) (hinside.append houtside)
  | false => exact .of_passes h (by simp [Network.ways, Edge.passes]) (houtside.append hinside)

end Explore

/-- The preferred way comes first. -/
theorem emitted_prefer (calls : List Call) (K : List TokenType → List Effect) (greedy : Bool)
    (inside outside : List Outcome) : emitted calls K (Outcome.prefer greedy inside outside) =
      if greedy then emitted calls K inside ++ emitted calls K outside
      else emitted calls K outside ++ emitted calls K inside := by
  cases greedy with
  | true => simp [Outcome.prefer]
  | false => simp [Outcome.prefer]

/-! ### Operators -/

namespace Network

variable {n : Network} {r : RuleIndex} {entry : Nat} {es : List (Expr Label RuleIndex)}
  {level : Int} {gates : List Edge}

/-- There is one gate for each operator. -/
theorem Gates.length_eq (h : n.Gates r entry es level gates) : gates.length = es.length := by
  induction h with
  | nil => rfl
  | cons _ _ _ _ ih => rw [List.length_cons, List.length_cons, ih]

/-- Gates stay in the rule. -/
theorem Gates.passes (h : n.Gates r entry es level gates) : ∀ e ∈ gates, e.passes = true := by
  induction h with
  | nil => simp
  | cons _ _ _ _ ih =>
      intro e he
      rcases List.mem_cons.mp he with rfl | he
      · rfl
      · exact ih e he

/-- The gate of an operator, and what lies behind it. -/
theorem Gates.drop (h : n.Gates r entry es level gates) {k : Nat} {e : Expr Label RuleIndex}
    (he : es[k]? = some e) :
    ∃ i x f, gates.drop k = .gate i (level - k) :: gates.drop (k + 1) ∧ n.Wired e i x ∧
      n.Calls x r (level - k + 1) f ∧ n.Leads f [.epsilon entry] := by
  induction h generalizing k with
  | nil => cases he
  | @cons e' es level i x f edges hwired hcalls hleads _ ih =>
      cases k with
      | zero =>
          cases he
          have hlevel : level - ((0 : Nat) : Int) = level := by omega
          rw [hlevel]
          exact ⟨i, x, f, rfl, hwired, hcalls, hleads⟩
      | succ k =>
          rw [List.getElem?_cons_succ] at he
          obtain ⟨i', x', f', hdrop, hrest⟩ := ih he
          have hlevel : level - 1 - (k : Int) = level - ((k + 1 : Nat) : Int) := by omega
          rw [hlevel] at hdrop hrest
          exact ⟨i', x', f', by simpa using hdrop, hrest⟩

end Network

/-! ### Phrases -/

/-- The branches of a choice begin with edges that just move on. -/
theorem Network.Branches.epsilon {n : Network} {es : List (Expr Label RuleIndex)}
    {edges : List Edge} {b : Nat} (h : n.Branches es edges b) :
    ∀ e ∈ edges, ∃ t, e = .epsilon t := by
  induction es generalizing edges with
  | nil =>
      cases h
      simp
  | cons first rest ih =>
      cases h with
      | cons _ _ hrest =>
          intro e he
          rcases List.mem_cons.mp he with rfl | he
          · exact ⟨_, rfl⟩
          · exact ih hrest e he

/-- The setting has the tokens, and it enters rules unless the answers say otherwise. -/
structure Setting.Follows (s : Setting) (w : List TokenType) (answers : Answers) : Prop where
  stream_eq : s.stream = ⟨w.toArray⟩
  entered : ∀ v a calls start r f level, v <:+ w → answers v r = none →
    s.call (spot w v a calls) start r f level =
      .ok [.visit ((spot w v a calls).call start ⟨r, some f, level⟩)]
  answered : ∀ v a calls start r f level x, v <:+ w → answers v r = some x →
    s.call (spot w v a calls) start r f level =
      .ok (x.reports.map (fun y => .report ⟨y.1, [chainOf calls ++ y.2]⟩) ++
        if x.passes then [.visit ((spot w v a calls).enter f)] else [])

/-- Wherever the phrase is read to its end, the exploration goes on at `b`. -/
def GoesOn (s : Setting) (w : List TokenType) (b : Nat) (calls : List Call)
    (K : List TokenType → List Effect) (os : List Outcome) : Prop :=
  ∀ u, .done u ∈ os → Settles s [spot w u b calls] (K u)

/-- The piece of a phrase is explored like the phrase is searched. A choice is looked at from its
decision on, and so are repeated parts and operators. -/
def Simulates (rules : List (Rule Label RuleIndex)) (s : Setting) (w : List TokenType) :
    Phrase Label RuleIndex → List TokenType → List Outcome → Prop
  | .expr (.alt es), v, os => ∀ calls K edges b, s.network.Branches es edges b →
      GoesOn s w b calls K os →
        Settles s (edges.map fun e => spot w v e.target calls) (emitted calls K os)
  | .expr (.star e greedy), v, os => ∀ calls K d i x b,
      s.network.Leads d (Network.ways greedy i b) → s.network.Wired e i x →
      s.network.Leads x [.epsilon d] → GoesOn s w b calls K os →
        Settles s [spot w v d calls] (emitted calls K os)
  | .expr e, v, os => ∀ calls K a b, s.network.Wired e a b → GoesOn s w b calls K os →
      Settles s [spot w v a calls] (emitted calls K os)
  | .rule r level, v, os => ∀ calls K a f, s.network.Calls a r level f →
      GoesOn s w f calls K os → Settles s [spot w v a calls] (emitted calls K os)
  | .body r level, v, os => ∀ follow calls K start stop, s.network.start? r = some start →
      s.network.stop? r = some stop → GoesOn s w stop (⟨r, follow, level⟩ :: calls) K os →
        Settles s [spot w v start (⟨r, follow, level⟩ :: calls)]
          (emitted (⟨r, follow, level⟩ :: calls) K os)
  | .loop r level next, v, os => ∀ follow calls K entry gates b primaries operators,
      rules[r]?.map Rule.body = some (.precedence primaries operators) →
      s.network.Gates r entry operators operators.length gates →
      s.network.Leads entry (gates ++ [.epsilon b]) →
      GoesOn s w b (⟨r, follow, level⟩ :: calls) K os →
        Settles s (((gates.drop next ++ [Edge.epsilon b]).filter (Edge.admitsLevel level)).map
          fun e => spot w v e.target (⟨r, follow, level⟩ :: calls))
            (emitted (⟨r, follow, level⟩ :: calls) K os)

section

variable {rules : List (Rule Label RuleIndex)} {s : Setting} {w v : List TokenType}
  {os : List Outcome}

/-- The piece of an expression, looked at from its start on. -/
theorem Simulates.piece {e : Expr Label RuleIndex} (h : Simulates rules s w (.expr e) v os)
    {calls : List Call} {K : List TokenType → List Effect} {a b : Nat}
    (hwired : s.network.Wired e a b) (hK : GoesOn s w b calls K os) :
    Settles s [spot w v a calls] (emitted calls K os) := by
  cases e with
  | alt es =>
      cases hwired with
      | @alt _ _ d _ edges hsource hd hbranches =>
          -- Edges without gates are open at every level.
          have hall : edges.filter (Edge.admitsLevel (levelOf calls)) = edges := by
            rw [List.filter_eq_self]
            intro e he
            obtain ⟨t, rfl⟩ := hbranches.epsilon e he
            rfl
          refine .of_epsilon hsource (.of_passes hd ?_ ?_)
          · intro e he
            obtain ⟨t, rfl⟩ := hbranches.epsilon e he
            rfl
          · rw [hall]
            exact h calls K edges b hbranches hK
  | star e greedy =>
      cases hwired with
      | star hsource hways hbody hlast =>
          exact .of_epsilon hsource (h _ _ _ _ _ _ hways hbody hlast hK)
  | terminal l => exact h _ _ _ _ hwired hK
  | rule r => exact h _ _ _ _ hwired hK
  | empty => exact h _ _ _ _ hwired hK
  | seq es => exact h _ _ _ _ hwired hK
  | optional e greedy => exact h _ _ _ _ hwired hK
  | plus e greedy => exact h _ _ _ _ hwired hK

/-- A call is what the setting makes of it. -/
theorem explore_call {a start f : Nat} {r : RuleIndex} {level : Int} {calls : List Call}
    {effects : List Effect} (h : s.network.Leads a [.call start r f level])
    (hcall : s.call (spot w v a calls) start r f level = .ok effects) :
    s.explore (spot w v a calls) = .ok effects := by
  have hlt : start < s.network.states.size := h.2 (.call start r f level) (by simp)
  refine explore_single h ?_
  exact (if_neg (isNone_of_lt hlt)).trans ((if_neg (by simp [spot])).trans hcall)

/-- A call that is answered has the outputs of the answer, and goes on if the rule can be passed. -/
theorem Settles.of_answer {a f : Nat} {calls : List Call} {K : List TokenType → List Effect}
    {x : Answer} (hexplore : s.explore (spot w v a calls) =
      .ok (x.reports.map (fun y => .report ⟨y.1, [chainOf calls ++ y.2]⟩) ++
        if x.passes then [.visit ((spot w v a calls).enter f)] else []))
    (hK : x.passes = true → Settles s [spot w v f calls] (K v)) :
    Settles s [spot w v a calls] (emitted calls K (x.outcomes v)) := by
  have hreports : ∀ e ∈ x.reports.map (fun y => Effect.report ⟨y.1, [chainOf calls ++ y.2]⟩),
      e.isGuard = false := by
    intro e he
    obtain ⟨y, -, rfl⟩ := List.mem_map.mp he
    rfl
  rw [Answer.outcomes, emitted_append, emitted_map_report]
  -- The reports come first. Only if the rule can be passed there is a position behind them.
  cases hpasses : x.passes with
  | false =>
      rw [hpasses, if_neg Bool.false_ne_true, List.append_nil] at hexplore
      rw [if_neg Bool.false_ne_true, emitted_nil]
      have hsettles := Settles.single hexplore hreports (by simpa using Settles.nil)
      simpa using hsettles
  | true =>
      rw [hpasses, if_pos rfl] at hexplore
      rw [if_pos rfl, emitted_done]
      have hsettles := Settles.single hexplore (fun e he => ?_)
        (by simpa [Position.enter, Position.bare, spot] using hK hpasses)
      · simpa using hsettles
      · rcases List.mem_append.mp he with he | he
        · exact hreports e he
        · rw [List.mem_singleton.mp he]
          rfl

/-- The piece of the body of a rule. -/
theorem wiredBody_of_realizes {alphabet : Universe} {r : RuleIndex} {body : Body Label RuleIndex}
    {start stop : Nat} (hn : s.network.Realizes rules alphabet)
    (hbody : rules[r]?.map Rule.body = some body) (hstart : s.network.start? r = some start)
    (hstop : s.network.stop? r = some stop) :
    ∃ exit, s.network.WiredBody r body start exit ∧ s.network.Leads exit [.epsilon stop] := by
  obtain ⟨rule, hrule, rfl⟩ := Option.map_eq_some_iff.mp hbody
  obtain ⟨start', exit, stop', hstart', hstop', hwired, hleads⟩ := hn.wired r rule hrule
  obtain rfl := Option.some.inj (hstart.symm.trans hstart')
  obtain rfl := Option.some.inj (hstop.symm.trans hstop')
  exact ⟨exit, hwired, hleads⟩

/-- The decision between operators opens the gates from the first one on. -/
theorem Settles.of_gates {r : RuleIndex} {entry b : Nat} {level : Int} {follow : Option StateId}
    {calls : List Call} {operators : List (Expr Label RuleIndex)} {gates : List Edge}
    {outs : List Effect} (hgates : s.network.Gates r entry operators operators.length gates)
    (hentry : s.network.Leads entry (gates ++ [.epsilon b]))
    (h : Settles s (((gates.drop 0 ++ [Edge.epsilon b]).filter (Edge.admitsLevel level)).map
      fun e => spot w v e.target (⟨r, follow, level⟩ :: calls)) outs) :
    Settles s [spot w v entry (⟨r, follow, level⟩ :: calls)] outs := by
  refine .of_passes hentry ?_ h
  intro e he
  rcases List.mem_append.mp he with he | he
  · exact hgates.passes e he
  · rw [List.mem_singleton.mp he]
    rfl

open Outcome in
/-- A network is explored like the grammar that it realizes is searched. -/
theorem Enumerates.simulates {alphabet : Universe} {answers : Answers}
    {x : Phrase Label RuleIndex} (hs : s.Follows w answers)
    (hn : s.network.Realizes rules alphabet)
    (h : Enumerates (.ofRules rules alphabet) answers x v os) (hv : v <:+ w) :
    Simulates rules s w x v os := by
  have halphabet := hn.alphabet_eq
  subst halphabet
  -- Induction on the search. `Simulates` is about all calls and all that may come behind, so that
  -- both can be chosen anew in each case.
  induction h with
  | terminal =>
      intro calls K a b hwired hK
      cases hwired with
      | terminal hproper hleads => exact .of_read hs.stream_eq hv hproper hleads hK
  | ref hcallee _ ih =>
      intro calls K a b hwired hK
      cases hcallee
      cases hwired with
      | rule hcalls => exact ih hv calls K a b hcalls hK
  | empty =>
      intro calls K a b hwired hK
      cases hwired
      rw [emitted_done]
      exact hK _ (by simp)
  | seqNil =>
      intro calls K a b hwired hK
      cases hwired
      rw [emitted_done]
      exact hK _ (by simp)
  | seqCons hfirst _ ih ih' =>
      intro calls K a b hwired hK
      cases hwired with
      | seqCons hwired hwired' =>
          rw [emitted_andThen]
          refine (ih hv).piece hwired fun u hu => ?_
          refine (ih' u hu ((hfirst.suffix hu).trans hv)).piece hwired' fun u' hu' => ?_
          exact hK u' (done_mem_andThen.mpr ⟨u, hu, hu'⟩)
  | altNil =>
      intro calls K edges b hbranches hK
      cases hbranches
      exact .nil
  | altCons _ _ ih ih' =>
      intro calls K edges b hbranches hK
      cases hbranches with
      | cons hwired hlast hrest =>
          rw [emitted_append, List.map_cons]
          refine Settles.append ((ih hv).piece hwired fun u hu => ?_)
            (ih' hv calls K _ b hrest fun u hu => ?_)
          · exact .of_epsilon hlast (hK u (List.mem_append_left _ hu))
          · exact hK u (List.mem_append_right _ hu)
  | optional _ ih =>
      intro calls K a b hwired hK
      cases hwired with
      | optional hsource hways hwired hlast =>
          rw [emitted_prefer, emitted_done]
          refine .of_epsilon hsource (.of_ways hways ((ih hv).piece hwired fun u hu => ?_) ?_)
          · exact .of_epsilon hlast (hK u (mem_prefer.mpr (Or.inl hu)))
          · exact hK _ (mem_prefer.mpr (Or.inr (by simp)))
  | star hfirst _ ih ih' =>
      intro calls K d i x b hways hwired hlast hK
      rw [emitted_prefer, emitted_done, emitted_andThen]
      refine .of_ways hways ((ih hv).piece hwired fun u hu => .of_epsilon hlast ?_) ?_
      · -- Behind the part the decision is the same one as before.
        refine ih' u hu ((hfirst.suffix hu).trans hv) calls K d i x b hways hwired hlast ?_
        intro u' hu'
        exact hK u' (mem_prefer.mpr (Or.inl (done_mem_andThen.mpr ⟨u, hu, hu'⟩)))
      · exact hK _ (mem_prefer.mpr (Or.inr (by simp)))
  | plus hfirst _ ih ih' =>
      intro calls K a b hwired hK
      cases hwired with
      | plus hsource hwired hlast hways =>
          rw [emitted_andThen]
          refine .of_epsilon hsource ((ih hv).piece hwired fun u hu => .of_epsilon hlast ?_)
          refine ih' u hu ((hfirst.suffix hu).trans hv) calls K _ _ _ b hways hwired hlast ?_
          exact fun u' hu' => hK u' (done_mem_andThen.mpr ⟨u, hu, hu'⟩)
  | @answered r level v x hanswer =>
      intro calls K a f hcalls hK
      obtain ⟨start, hstart, hleads, hreturns⟩ := hcalls
      have hexplore := explore_call hleads (hs.answered v a calls start r f level x hv hanswer)
      exact .of_answer hexplore fun hpasses =>
        hK v (Answer.done_mem_outcomes.mpr ⟨hpasses, rfl⟩)
  | @entered r level v os hanswer _ ih =>
      intro calls K a f hcalls hK
      obtain ⟨start, hstart, hleads, hreturns⟩ := hcalls
      obtain ⟨-, stop, -, hstop, -⟩ := id hreturns
      have hexplore := explore_call hleads (hs.entered v a calls start r f level hv hanswer)
      -- Below the call the chain is longer by the rule, which is what the outcomes are put within.
      rw [emitted_within calls K r (some f) level]
      refine Settles.single hexplore (by simp [Effect.isGuard]) ?_
      refine ih hv (some f) calls K start stop hstart hstop fun u hu => ?_
      exact .of_return hstop hreturns (hK u (done_mem_map_within.mpr hu))
  | plain hbody _ ih =>
      intro follow calls K start stop hstart hstop hK
      obtain ⟨exit, hwired, hlast⟩ := wiredBody_of_realizes hn hbody hstart hstop
      cases hwired with
      | plain hwired => exact (ih hv).piece hwired fun u hu => .of_epsilon hlast (hK u hu)
  | precedence hbody hfirst _ ih ih' =>
      intro follow calls K start stop hstart hstop hK
      obtain ⟨exit, hwired, hlast⟩ := wiredBody_of_realizes hn hbody hstart hstop
      cases hwired with
      | precedence hwired hsource hgates hentry =>
          rw [emitted_andThen]
          refine (ih hv).piece hwired fun u hu => .of_epsilon hsource (.of_gates hgates hentry ?_)
          refine ih' u hu ((hfirst.suffix hu).trans hv) follow calls K _ _ _ _ _ hbody hgates
            hentry ?_
          intro u' hu'
          exact .of_epsilon hlast (hK u' (done_mem_andThen.mpr ⟨u, hu, hu'⟩))
  | loopEnd hbody hnext =>
      intro follow calls K entry gates b primaries operators hbody' hgates hentry hK
      -- All gates are behind, and what is left is the edge that leaves the rule.
      cases hbody.symm.trans hbody'
      rw [List.drop_of_length_le (by rw [hgates.length_eq]; exact hnext), emitted_done]
      exact hK _ (by simp)
  | @loopSkip r level next primaries operators v os hbody hnext hlevel _ ih =>
      intro follow calls K entry gates b primaries' operators' hbody' hgates hentry hK
      cases hbody.symm.trans hbody'
      obtain ⟨i, x, f, hdrop, -⟩ := hgates.drop (List.getElem?_eq_getElem hnext)
      -- The gate is closed at this level, so it is not among the ways.
      have hclosed : (Edge.gate i (operators.length - next)).admitsLevel level = false := by
        simpa [Edge.admitsLevel] using hlevel
      rw [hdrop, List.cons_append, List.filter_cons_of_neg (by rw [hclosed]; decide)]
      exact ih hv follow calls K entry gates b _ _ hbody' hgates hentry hK
  | @loopMore r level next primaries operators e v os os' f g hbody hoperator hlevel hfirst hsecond
      _ _ ih ih' ih'' ihrest =>
      intro follow calls K entry gates b primaries' operators' hbody' hgates hentry hK
      cases hbody.symm.trans hbody'
      obtain ⟨i, x, f', hdrop, hwired, hcalls, hlast⟩ := hgates.drop hoperator
      have hopen : (Edge.gate i (operators.length - next)).admitsLevel level = true := by
        simpa [Edge.admitsLevel] using hlevel
      rw [hdrop, List.cons_append, List.filter_cons_of_pos hopen, List.map_cons, emitted_append,
        emitted_andThen, emitted_andThen]
      refine Settles.append ((ih hv).piece hwired fun u hu => ?_)
        (ihrest hv follow calls K entry gates b _ _ hbody' hgates hentry fun u hu =>
          hK u (List.mem_append_right _ hu))
      -- Behind the operator comes its right operand, and then the operators from the start.
      have husuffix := (hfirst.suffix hu).trans hv
      refine ih' u hu husuffix _ _ x f' hcalls fun u' hu' => .of_epsilon hlast ?_
      have hmem : .done u' ∈ andThen os f := done_mem_andThen.mpr ⟨u, hu, hu'⟩
      refine .of_gates hgates hentry (ih'' u' hmem (((hsecond u hu).suffix hu').trans husuffix)
        follow calls K entry gates b _ _ hbody' hgates hentry fun u'' hu'' => ?_)
      exact hK u'' (List.mem_append_left _ (done_mem_andThen.mpr ⟨u', hmem, hu''⟩))

end

end Caret
