import Caret.Network.Basic
import Caret.Recovery
import Caret.Traversal.FirstTokens
import Caret.Traversal.TokenStream

/-!
# `Caret.Traversal.Machine`: exploring a network up to the caret

The machine follows every way through a parser network that reads the tokens in front of the caret.
Where a way arrives at the caret, the symbols that its next edge would read are candidates.

Pending work is a stack of tasks. A position to explore is a state with the number of tokens read,
the calls that are open, and the states passed since the last token or rule boundary: a state is not
entered twice on such a stretch, so that loops which read nothing come to an end. Exploring a
position yields a list of effects, which are applied in order. The edges of a state are handled last
to first, so that the first one is explored first.

A call into a rule with a recovery rule leaves a guard below the called rule on the stack. The guard
is looked at when everything that the call led to has been explored. If no candidate was found
meanwhile, the recovery rule is used.
-/

set_option autoImplicit false

namespace Caret

/-! ### Positions and tasks -/

/-- An open call: the rule, where its caller goes on, and the precedence level of the call. The
rule that a traversal starts with has no caller. -/
structure Call where
  rule : RuleIndex
  follow : Option StateId
  level : Int
deriving DecidableEq

/-- A place in the exploration. -/
structure Position where
  state : StateId
  /-- The number of tokens read. -/
  index : Nat
  /-- The states passed since the last token or rule boundary. -/
  visited : List StateId
  /-- The open calls, innermost first. -/
  calls : List Call
  /-- The number of recoveries on the way. -/
  recoveries : Nat
deriving DecidableEq

namespace Position

/-- The precedence level of the innermost call. -/
def level (p : Position) : Int := (p.calls.head?.map Call.level).getD 0

/-- The rules that are open, outermost first. -/
def chain (p : Position) : Chain := (p.calls.map Call.rule).reverse

/-- Go to a state where no state counts as passed. -/
def enter (p : Position) (state : StateId) : Position := { p with state, visited := [] }

/-- Go to a state within the rule without reading anything. -/
def pass (p : Position) (state : StateId) : Position :=
  { p with state, visited := state :: p.visited }

/-- Read a token and go to a state. -/
def advance (p : Position) (state : StateId) : Position :=
  { p with state, index := p.index + 1, visited := [] }

/-- Enter a rule. -/
def call (p : Position) (start : StateId) (c : Call) : Position :=
  { p with state := start, visited := [], calls := c :: p.calls }

end Position

/-- What a guard remembers of the call it stands below. -/
structure Guard where
  /-- The position of the recovery rule in its list. -/
  recovery : Nat
  /-- The number of candidates found before the call. -/
  found : Nat
  /-- The precedence level of the call. -/
  level : Int
deriving DecidableEq

/-- A piece of pending work. A guard stands at the follow state of its call. -/
inductive Task where
  | explore (p : Position)
  | watch (p : Position) (g : Guard)
deriving DecidableEq

/-! ### Settings -/

/-- What a traversal takes into account besides the network and the tokens. -/
structure Options where
  /-- The rules that are suggested as a whole where they can come next. -/
  reported : List RuleIndex
  recovery : List RecoveryRule
  firstTokens : Option FirstTokens

/-- Nothing is reported as a whole, nothing is recovered, and nothing is known in advance. -/
def Options.none : Options := ⟨[], [], Option.none⟩

/-- Why a traversal gives no answer: a number left its range, or the allowed steps were used up. -/
inductive Halt where
  | overflow (cause : Overflow)
  | unfinished
deriving DecidableEq

/-- The surroundings of a traversal. -/
structure Setting where
  network : Network
  stream : TokenStream
  options : Options
  /-- Whether a rule can be passed without reading a token. -/
  nullable : RuleIndex → Except Halt Bool

/-- What exploring a position leads to. -/
inductive Effect where
  /-- The first rule is complete and all tokens are read. -/
  | finish
  | report (c : Candidate)
  | visit (p : Position)
  /-- Put a guard on the stack: its place, its recovery rule, and the level of its call. -/
  | guard (p : Position) (recovery : Nat) (level : Int)
deriving DecidableEq

namespace Setting

/-! ### Edges -/

/-- Go along an edge that reads nothing and stays within the rule, unless its target was passed
before. Where a rule is left, no state counts as passed afterwards. -/
def pass (p : Position) (leaving : Bool) (target : StateId) : List Effect :=
  if target ∈ p.visited then []
  else [.visit (if leaving then p.enter target else p.pass target)]

/-- Enter a rule, above a guard if there is a recovery rule for it. -/
def enter (s : Setting) (p : Position) (start : StateId) (rule : RuleIndex) (follow : StateId)
    (level : Int) : List Effect :=
  let entry := Effect.visit (p.call start ⟨rule, some follow, level⟩)
  match s.options.recovery.findIdx? (·.inRule == rule) with
  -- The guard lies below the entry, so it is looked at when all ways into the rule have ended.
  | some recovery => [.guard (p.enter follow) recovery level, entry]
  | none => [entry]

/-- Call a rule. At the caret a rule that is to be reported is a candidate itself, and with a table
of first tokens the candidates are taken from the table. In both cases the rule is not entered, and
the way goes on behind it if it can be passed. In front of a token the table may rule the call
out. -/
def call (s : Setting) (p : Position) (start : StateId) (rule : RuleIndex) (follow : StateId)
    (level : Int) : Except Halt (List Effect) :=
  match s.stream.lookahead p.index, s.options.firstTokens with
  | some .caret, firstTokens =>
      if rule ∈ s.options.reported then
        (s.nullable rule).map fun nullable =>
          .report ⟨.rule rule, [p.chain]⟩ :: if nullable then [.visit (p.enter follow)] else []
      else
        match firstTokens with
        | some f =>
            .ok ((f.splice s.options.reported p.chain rule).map .report ++
              if f.isNullable rule then [.visit (p.enter follow)] else [])
        | none => .ok (s.enter p start rule follow level)
  | some (.token t), some f =>
      .ok (if f.mayStartWith rule t then s.enter p start rule follow level else [])
  -- In front of a token without a table, or behind the caret.
  | _, _ => .ok (s.enter p start rule follow level)

/-- Read a symbol: a token that the edge admits, or at the caret every symbol of the edge as a
candidate. -/
def read (s : Setting) (p : Position) (e : Edge) : Except Halt (List Effect) :=
  match s.stream.lookahead p.index with
  | some .caret =>
      match e.symbols? s.network.alphabet with
      | .ok (some set) => .ok (set.toList.map fun t => .report ⟨.token t, [p.chain]⟩)
      | .ok none => .ok []
      | .error cause => .error (.overflow cause)
  | some (.token t) =>
      .ok (if e.admits s.network.alphabet t then [.visit (p.advance e.target)] else [])
  | none => .ok []

/-- Go along an edge. An edge to a state that does not exist leads nowhere. -/
def follow (s : Setting) (p : Position) (leaving : Bool) (e : Edge) :
    Except Halt (List Effect) :=
  if (s.network.state? e.target).isNone then .ok []
  else
    match e with
    | .epsilon target => .ok (pass p leaving target)
    | .command target _ => .ok (pass p leaving target)
    | .gate target level => .ok (if level < p.level then [] else pass p leaving target)
    | .call target rule follow level =>
        if target ∈ p.visited then .ok [] else s.call p target rule follow level
    | .read _ _ => s.read p e

/-- Go along the edges, the last one first. -/
def followAll (s : Setting) (p : Position) (leaving : Bool) :
    List Edge → Except Halt (List Effect)
  | [] => .ok []
  | e :: rest => do
      -- What is put on the stack last is explored first.
      let later ← s.followAll p leaving rest
      let here ← s.follow p leaving e
      return later ++ here

/-- Explore a position. At the stop state of a rule the innermost call is closed, and the way goes
on along the edges to its follow state only. With the first rule the traversal is at its end. -/
def explore (s : Setting) (p : Position) : Except Halt (List Effect) :=
  match s.network.state? p.state with
  | none => .ok []
  | some state =>
      if state.kind = .ruleStop then
        match p.calls with
        | ⟨_, some follow, _⟩ :: callers =>
            s.followAll { p with calls := callers } true
              (state.edges.filter fun e => e.target = follow)
        -- Nobody called the rule. Only at the caret is this the end, since tokens may be left.
        | _ => .ok (if p.index = s.stream.caret then [.finish] else [])
      else s.followAll p false state.edges

/-! ### Recovery -/

/-- The position from which a recovery rule goes on, if its token is found further on and its target
exists. The number of recoveries on a way is an unsigned 32-bit number. -/
def resume (s : Setting) (p : Position) (g : Guard) (r : RecoveryRule) :
    Except Overflow (Option Position) := do
  match ← s.stream.findAfter? r.token p.index with
  | none => return none
  | some found =>
      let index := if r.skipOne then found + 1 else found
      match r.target with
      | .finishRule =>
          let recoveries ← natAdd nat32Max p.recoveries 1
          return some { p with index, visited := [], recoveries }
      | .goToRule rule =>
          match s.network.start? rule with
          | none => return none
          | some start =>
              let recoveries ← natAdd nat32Max p.recoveries 1
              -- The entered rule returns to where the failed call would have.
              let next := { p with index, recoveries }
              return some (next.call start ⟨rule, some p.state, g.level⟩)

end Setting

/-! ### The machine -/

/-- The state of a traversal: pending tasks, next one first, and what has come of it so far. -/
structure Machine where
  pending : List Task
  found : Array Candidate
  reachedEnd : Bool
  stats : RecoveryStats
  /-- The recovery rules that were tried, each with the position it was tried at. -/
  tried : List (Nat × Nat)

namespace Machine

/-- The machine before the first step: at the start of a rule, with nothing read. -/
def start (rule : RuleIndex) (state : StateId) : Machine where
  pending := [.explore ⟨state, 0, [], [⟨rule, none, 0⟩], 0⟩]
  found := #[]
  reachedEnd := false
  stats := .empty
  tried := []

/-- The outcome of an effect. -/
def apply (m : Machine) : Effect → Machine
  | .finish => { m with reachedEnd := true }
  | .report c => { m with found := m.found.push c }
  | .visit p => { m with pending := .explore p :: m.pending }
  | .guard p recovery level =>
      { m with pending := .watch p ⟨recovery, m.found.size, level⟩ :: m.pending }

/-- Look at a guard. Its recovery rule is used if nothing was found since the guard was set, the
rule allows it here, and it was not tried at this position before. -/
def recover (s : Setting) (m : Machine) (p : Position) (g : Guard) : Except Halt Machine :=
  if m.found.size ≠ g.found then .ok m
  else
    match s.options.recovery[g.recovery]? with
    | none => .ok m
    | some r =>
        -- Rules that may not be nested are used on ways without any recovery only.
        if (!r.nested && 0 < p.recoveries) || (g.recovery, p.index) ∈ m.tried then .ok m
        else
          let tried := (g.recovery, p.index) :: m.tried
          match s.resume p g r with
          | .error cause => .error (.overflow cause)
          -- The token is not there or the rule does not exist. This is not tried again.
          | .ok none => .ok { m with tried }
          | .ok (some next) =>
              .ok { m with
                pending := .explore next :: m.pending
                stats := m.stats.record r
                tried }

/-- Do the next task. -/
def step (s : Setting) (m : Machine) : Except Halt Machine :=
  match m with
  | ⟨[], _, _, _, _⟩ => .ok m
  | ⟨.explore p :: rest, found, reachedEnd, stats, tried⟩ =>
      match s.explore p with
      | .ok effects => .ok (effects.foldl apply ⟨rest, found, reachedEnd, stats, tried⟩)
      | .error h => .error h
  | ⟨.watch p g :: rest, found, reachedEnd, stats, tried⟩ =>
      recover s ⟨rest, found, reachedEnd, stats, tried⟩ p g

/-- Do tasks until none is left, at most `limit` of them. -/
def run (s : Setting) (limit : Nat) (m : Machine) : Except Halt Machine :=
  if m.pending.isEmpty then .ok m
  else
    match limit with
    | 0 => .error .unfinished
    | limit + 1 =>
        match step s m with
        | .ok next => run s limit next
        | .error h => .error h

end Machine

end Caret
