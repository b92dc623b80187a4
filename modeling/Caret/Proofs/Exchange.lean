import Mathlib
import Caret.Json.Completion

/-!
# `Caret.Proofs.Exchange`: what is written is read back

Any value can be written, but a number is only read if it is in the range of its type. So
`RoundTrips write read Fits` says both: a value whose numbers are in range is read back as itself,
and any other one is refused.

The types of the exchange format are made of numbers, texts and truth values by lists, records and
forms. `RoundTrips.listOf` is about lists. The names in a record or a form are fixed, so finding a
field by its name is a matter of computation, and what is left is to read the fields one after the
other. Each proof shows this first, and `RoundTrips.bind_eq_some_iff` then takes one field after the
other away.

`exchange_round_trips` is the result for networks, lexer networks and completions.
-/

set_option autoImplicit false

namespace Caret

/-! ### Values in range -/

/-- The number fits into 32 bits with a sign. -/
def FitsInt32 (v : Int) : Prop := int32Min ≤ v ∧ v ≤ int32Max

/-- The number fits into 32 bits. -/
def FitsNat32 (n : Nat) : Prop := n ≤ nat32Max

/-- The number fits into 64 bits. -/
def FitsNat64 (n : Nat) : Prop := n ≤ nat64Max

/-- Both ends of the interval are in range, whichever is the greater. -/
def Interval.Fits (i : Interval) : Prop := FitsInt32 i.start ∧ FitsInt32 i.stop

/-- All intervals are in range. They are written as they are stored, so nothing is asked of their
order. -/
def IntervalSet.Fits (s : IntervalSet) : Prop := ∀ i ∈ s.intervals, i.Fits

/-- The symbols that are named are in range. A label for all symbols names none. -/
def Label.Fits : Label → Prop
  | .symbol value => FitsInt32 value
  | .oneOf set => set.Fits
  | .noneOf set => set.Fits
  | .any => True

/-- State numbers have 32 bits, rules and commands are counted with 64, and levels have a sign. -/
def Edge.Fits : Edge → Prop
  | .epsilon target => FitsNat32 target
  | .gate target level => FitsNat32 target ∧ FitsInt32 level
  | .call target rule follow level =>
      FitsNat32 target ∧ FitsNat64 rule ∧ FitsNat32 follow ∧ FitsInt32 level
  | .command target index => FitsNat32 target ∧ FitsNat64 index
  | .read target label => FitsNat32 target ∧ label.Fits

/-- The number of the state, its rule and its edges are in range. The number need not be its
position. -/
def State.Fits (s : State) : Prop :=
  FitsNat32 s.id ∧ FitsNat64 s.rule ∧ ∀ e ∈ s.edges, e.Fits

/-- All states, the numbers of start and stop states, and the last token type are in range. -/
def Network.Fits (n : Network) : Prop :=
  (∀ s ∈ n.states.toList, s.Fits) ∧ (∀ id ∈ n.starts.toList, FitsNat32 id) ∧
    (∀ id ∈ n.stops.toList, FitsNat32 id) ∧ FitsInt32 n.maxTokenType

/-- The number that a command carries is in range, if it carries one. -/
def Command.Fits : Command → Prop
  | .channel number => FitsInt32 number
  | .type tokenType => FitsInt32 tokenType
  | .mode index => FitsNat64 index
  | .pushMode index => FitsNat64 index
  | .skip | .more | .popMode => True

/-- The network, the token types of its rules and its commands are in range. -/
def LexerNetwork.Fits (l : LexerNetwork) : Prop :=
  l.network.Fits ∧ (∀ t ∈ l.tokenTypes.toList, FitsInt32 t) ∧
    ∀ c ∈ l.commands.toList, c.Fits

/-- The rule that a recovery goes to is in range. -/
def RecoveryTarget.Fits : RecoveryTarget → Prop
  | .goToRule rule => FitsNat64 rule
  | .finishRule => True

/-- The rule and the token of a recovery rule are in range, and so is its target. -/
def RecoveryRule.Fits (r : RecoveryRule) : Prop :=
  FitsNat64 r.inRule ∧ FitsInt32 r.token ∧ r.target.Fits

/-- The rule is in range and so is the number of times it was tried. -/
def RecoveryCount.Fits (c : RecoveryCount) : Prop := c.rule.Fits ∧ FitsNat64 c.attempts

/-- All counts are in range. -/
def RecoveryStats.Fits (s : RecoveryStats) : Prop := ∀ c ∈ s.counts, c.Fits

/-- The token type or the rule that is suggested is in range. -/
def SuggestionId.Fits : SuggestionId → Prop
  | .token tokenType => FitsInt32 tokenType
  | .rule index => FitsNat64 index

/-- What is suggested is in range. The names that come with it are texts. -/
def Suggestion.Fits (s : Suggestion) : Prop := s.id.Fits

/-- All suggestions and the counts of recoveries are in range. -/
def Completion.Fits (c : Completion) : Prop :=
  (∀ s ∈ c.suggestions, s.Fits) ∧ c.stats.Fits

/-! ### Writing and reading -/

/-- What is written is read back as itself if it is in range, and else not at all. -/
def RoundTrips {α : Type} (write : α → Json) (read : Json → Option α) (Fits : α → Prop) : Prop :=
  ∀ x y, read (write x) = some y ↔ Fits x ∧ x = y

/-- If `x` is all that can be read, it goes on to what is read after it. -/
theorem bind_eq_some_iff_of_forall {α β : Type} {o : Option α} {p : Prop} {x : α}
    (h : ∀ x', o = some x' ↔ p ∧ x = x') (next : α → Option β) (y : β) :
    o.bind next = some y ↔ p ∧ next x = some y := by
  rw [Option.bind_eq_some_iff]
  constructor
  · rintro ⟨x', hread, hnext⟩
    obtain ⟨hp, rfl⟩ := (h x').mp hread
    exact ⟨hp, hnext⟩
  · rintro ⟨hp, hnext⟩
    exact ⟨x, (h x).mpr ⟨hp, rfl⟩, hnext⟩

namespace RoundTrips

variable {α : Type} {write : α → Json} {read : Json → Option α} {Fits : α → Prop}
  (h : RoundTrips write read Fits)
include h

/-- A field that is in range goes on as it is to what is read after it. -/
theorem bind_eq_some_iff {β : Type} (x : α) (next : α → Option β) (y : β) :
    (read (write x)).bind next = some y ↔ Fits x ∧ next x = some y :=
  bind_eq_some_iff_of_forall (h x) next y

/-- A list is read back if each of its values is. One that is refused makes the whole list be
refused. -/
theorem listOf : RoundTrips (Json.listOf write) (Json.list? read) fun xs => ∀ x ∈ xs, Fits x := by
  intro xs ys
  show (xs.map write).mapM read = some ys ↔ (∀ x ∈ xs, Fits x) ∧ xs = ys
  induction xs generalizing ys with
  | nil => simp
  | cons x xs ih =>
      -- The first value is read, then the rest of the list, and the two are put together.
      rw [List.map_cons, List.mapM_cons]
      show ((read (write x)).bind fun x => ((xs.map write).mapM read).bind fun xs =>
        some (x :: xs)) = some ys ↔ _
      rw [h.bind_eq_some_iff, bind_eq_some_iff_of_forall ih, Option.some.injEq,
        List.forall_mem_cons, and_assoc]

end RoundTrips

namespace Json

/-! ### Numbers, texts and truth values -/

/-- A signed number is refused on both sides of its range. -/
theorem int32_roundTrips : RoundTrips Json.int int32? FitsInt32 := by
  intro v w
  simp [int32?, FitsInt32]

/-- A number without a sign is only refused above its range. The two widths below are this at their
greatest numbers. -/
theorem natUpTo_roundTrips (max : Nat) : RoundTrips nat (natUpTo? max) (· ≤ max) := by
  intro v w
  -- Numbers are written with a sign, and a natural number comes back from it.
  simp [nat, natUpTo?]

/-- State numbers. -/
theorem nat32_roundTrips : RoundTrips nat nat32? FitsNat32 := natUpTo_roundTrips nat32Max

/-- Rule indices, positions and counts. -/
theorem nat64_roundTrips : RoundTrips nat nat64? FitsNat64 := natUpTo_roundTrips nat64Max

/-- Any text is read back. -/
theorem text_roundTrips : RoundTrips Json.text text? fun _ => True := by
  intro s t
  simp [text?]

/-- Both truth values are read back. -/
theorem bool_roundTrips : RoundTrips Json.bool bool? fun _ => True := by
  intro b c
  simp [bool?]

end Json

/-! ### Networks -/

/-- An interval is a pair of two numbers. -/
theorem Interval.roundTrips : RoundTrips Interval.toJson ofJson? Fits := by
  rintro ⟨start, stop⟩ y
  -- Finding the two fields computes. What is left is to read them.
  show ((Json.int start).int32?.bind fun start => (Json.int stop).int32?.bind fun stop =>
    some (Interval.mk start stop)) = some y ↔ _
  simp only [Json.int32_roundTrips.bind_eq_some_iff, Fits, Option.some.injEq, and_assoc]

/-- A set is the list of its intervals. They are not put in order on the way, so also a set that no
operation makes is read back as itself. -/
theorem IntervalSet.roundTrips : RoundTrips IntervalSet.toJson ofJson? Fits := by
  rintro ⟨intervals⟩ y
  show (((Json.listOf Interval.toJson intervals).list? Interval.ofJson?).bind fun intervals =>
    some (IntervalSet.mk intervals)) = some y ↔ _
  simp only [Interval.roundTrips.listOf.bind_eq_some_iff, Fits, Option.some.injEq]

/-- The forms of edges that read a symbol are those of its label. -/
theorem Edge.read_roundTrips (target : StateId) (label : Label) (y : Edge) :
    ofJson? (read target label).toJson = some y ↔
      (FitsNat32 target ∧ label.Fits) ∧ read target label = y := by
  -- A label has no form of its own: each of its kinds is a form of edges.
  cases label with
  | symbol value =>
      show ((Json.nat target).nat32?.bind fun target => (Json.int value).int32?.bind fun value =>
        some (read target (.symbol value))) = some y ↔ _
      simp only [Json.nat32_roundTrips.bind_eq_some_iff, Json.int32_roundTrips.bind_eq_some_iff,
        Label.Fits, Option.some.injEq, and_assoc]
  | oneOf set =>
      show ((Json.nat target).nat32?.bind fun target =>
        (IntervalSet.ofJson? set.toJson).bind fun set =>
          some (read target (.oneOf set))) = some y ↔ _
      simp only [Json.nat32_roundTrips.bind_eq_some_iff, IntervalSet.roundTrips.bind_eq_some_iff,
        Label.Fits, Option.some.injEq, and_assoc]
  | noneOf set =>
      show ((Json.nat target).nat32?.bind fun target =>
        (IntervalSet.ofJson? set.toJson).bind fun set =>
          some (read target (.noneOf set))) = some y ↔ _
      simp only [Json.nat32_roundTrips.bind_eq_some_iff, IntervalSet.roundTrips.bind_eq_some_iff,
        Label.Fits, Option.some.injEq, and_assoc]
  | any =>
      show ((Json.nat target).nat32?.bind fun target => some (read target .any)) = some y ↔ _
      simp only [Json.nat32_roundTrips.bind_eq_some_iff, Label.Fits, Option.some.injEq, and_true]

/-- An edge is written in one of several forms, by what it does. Each form has its own fields. -/
theorem Edge.roundTrips : RoundTrips Edge.toJson ofJson? Fits := by
  intro x y
  cases x with
  | epsilon target =>
      show ((Json.nat target).nat32?.bind fun target => some (epsilon target)) = some y ↔ _
      simp only [Json.nat32_roundTrips.bind_eq_some_iff, Fits, Option.some.injEq]
  | gate target level =>
      show ((Json.nat target).nat32?.bind fun target => (Json.int level).int32?.bind fun level =>
        some (gate target level)) = some y ↔ _
      simp only [Json.nat32_roundTrips.bind_eq_some_iff, Json.int32_roundTrips.bind_eq_some_iff,
        Fits, Option.some.injEq, and_assoc]
  | call target rule follow level =>
      show ((Json.nat target).nat32?.bind fun target => (Json.nat rule).nat64?.bind fun rule =>
        (Json.nat follow).nat32?.bind fun follow => (Json.int level).int32?.bind fun level =>
          some (call target rule follow level)) = some y ↔ _
      simp only [Json.nat32_roundTrips.bind_eq_some_iff, Json.nat64_roundTrips.bind_eq_some_iff,
        Json.int32_roundTrips.bind_eq_some_iff, Fits, Option.some.injEq, and_assoc]
  | command target index =>
      show ((Json.nat target).nat32?.bind fun target => (Json.nat index).nat64?.bind fun index =>
        some (command target index)) = some y ↔ _
      simp only [Json.nat32_roundTrips.bind_eq_some_iff, Json.nat64_roundTrips.bind_eq_some_iff,
        Fits, Option.some.injEq, and_assoc]
  | read target label => exact read_roundTrips target label y

/-- The kinds of states are four words. -/
theorem StateKind.roundTrips : RoundTrips StateKind.toJson ofJson? fun _ => True := by
  intro x y
  -- There is no number that could be out of range.
  have hread : ofJson? x.toJson = some x := by cases x <;> rfl
  rw [hread, Option.some.injEq, true_and]

/-- A state is a record. Its edges are read last, in their order. -/
theorem State.roundTrips : RoundTrips State.toJson ofJson? Fits := by
  rintro ⟨id, rule, kind, edges⟩ y
  show ((Json.nat id).nat32?.bind fun id => (Json.nat rule).nat64?.bind fun rule =>
    (StateKind.ofJson? kind.toJson).bind fun kind =>
      ((Json.listOf Edge.toJson edges).list? Edge.ofJson?).bind fun edges =>
        some (State.mk id rule kind edges)) = some y ↔ _
  simp only [Json.nat32_roundTrips.bind_eq_some_iff, Json.nat64_roundTrips.bind_eq_some_iff,
    StateKind.roundTrips.bind_eq_some_iff, Edge.roundTrips.listOf.bind_eq_some_iff, Fits,
    Option.some.injEq, and_assoc, true_and]

/-- A network keeps its tables as lists when it is written. -/
theorem Network.roundTrips : RoundTrips Network.toJson ofJson? Fits := by
  rintro ⟨states, starts, stops, maxTokenType⟩ y
  show (((Json.listOf State.toJson states.toList).list? State.ofJson?).bind fun states =>
    ((Json.listOf Json.nat starts.toList).list? Json.nat32?).bind fun starts =>
      ((Json.listOf Json.nat stops.toList).list? Json.nat32?).bind fun stops =>
        (Json.int maxTokenType).int32?.bind fun maxTokenType =>
          some (Network.mk states.toArray starts.toArray stops.toArray maxTokenType)) = some y ↔ _
  -- Going to a list and back to a table changes nothing (`Array.toArray_toList`).
  simp only [State.roundTrips.listOf.bind_eq_some_iff,
    Json.nat32_roundTrips.listOf.bind_eq_some_iff, Json.int32_roundTrips.bind_eq_some_iff, Fits,
    Array.toArray_toList, Option.some.injEq, and_assoc]

/-- Commands with a number and commands without one have forms of their own. -/
theorem Command.roundTrips : RoundTrips Command.toJson ofJson? Fits := by
  intro x y
  cases x with
  | channel number =>
      show ((Json.int number).int32?.bind fun number => some (channel number)) = some y ↔ _
      simp only [Json.int32_roundTrips.bind_eq_some_iff, Fits, Option.some.injEq]
  | type tokenType =>
      show ((Json.int tokenType).int32?.bind fun tokenType => some (type tokenType)) = some y ↔ _
      simp only [Json.int32_roundTrips.bind_eq_some_iff, Fits, Option.some.injEq]
  | mode index =>
      show ((Json.nat index).nat64?.bind fun index => some (mode index)) = some y ↔ _
      simp only [Json.nat64_roundTrips.bind_eq_some_iff, Fits, Option.some.injEq]
  | pushMode index =>
      show ((Json.nat index).nat64?.bind fun index => some (pushMode index)) = some y ↔ _
      simp only [Json.nat64_roundTrips.bind_eq_some_iff, Fits, Option.some.injEq]
  | skip =>
      show some skip = some y ↔ _
      simp only [Fits, Option.some.injEq, true_and]
  | more =>
      show some more = some y ↔ _
      simp only [Fits, Option.some.injEq, true_and]
  | popMode =>
      show some popMode = some y ↔ _
      simp only [Fits, Option.some.injEq, true_and]

/-- The network of a lexer comes with two tables beside it. -/
theorem LexerNetwork.roundTrips : RoundTrips LexerNetwork.toJson ofJson? Fits := by
  rintro ⟨network, tokenTypes, commands⟩ y
  show ((Network.ofJson? network.toJson).bind fun network =>
    ((Json.listOf Json.int tokenTypes.toList).list? Json.int32?).bind fun tokenTypes =>
      ((Json.listOf Command.toJson commands.toList).list? Command.ofJson?).bind fun commands =>
        some (LexerNetwork.mk network tokenTypes.toArray commands.toArray)) = some y ↔ _
  simp only [Network.roundTrips.bind_eq_some_iff, Json.int32_roundTrips.listOf.bind_eq_some_iff,
    Command.roundTrips.listOf.bind_eq_some_iff, Fits, Array.toArray_toList, Option.some.injEq,
    and_assoc]

/-! ### Completions -/

/-- A recovery goes to a rule or finishes its own. -/
theorem RecoveryTarget.roundTrips : RoundTrips RecoveryTarget.toJson ofJson? Fits := by
  intro x y
  cases x with
  | goToRule rule =>
      show ((Json.nat rule).nat64?.bind fun rule => some (goToRule rule)) = some y ↔ _
      simp only [Json.nat64_roundTrips.bind_eq_some_iff, Fits, Option.some.injEq]
  | finishRule =>
      show some finishRule = some y ↔ _
      simp only [Fits, Option.some.injEq, true_and]

/-- A recovery rule has two truth values, which are always in range. -/
theorem RecoveryRule.roundTrips : RoundTrips RecoveryRule.toJson ofJson? Fits := by
  rintro ⟨inRule, token, target, skipOne, nested⟩ y
  show ((Json.nat inRule).nat64?.bind fun inRule => (Json.int token).int32?.bind fun token =>
    (RecoveryTarget.ofJson? target.toJson).bind fun target =>
      (Json.bool skipOne).bool?.bind fun skipOne => (Json.bool nested).bool?.bind fun nested =>
        some (RecoveryRule.mk inRule token target skipOne nested)) = some y ↔ _
  simp only [Json.nat64_roundTrips.bind_eq_some_iff, Json.int32_roundTrips.bind_eq_some_iff,
    RecoveryTarget.roundTrips.bind_eq_some_iff, Json.bool_roundTrips.bind_eq_some_iff, Fits,
    Option.some.injEq, and_assoc, true_and]

/-- A count is the rule and a number. -/
theorem RecoveryCount.roundTrips : RoundTrips RecoveryCount.toJson ofJson? Fits := by
  rintro ⟨rule, attempts⟩ y
  show ((RecoveryRule.ofJson? rule.toJson).bind fun rule =>
    (Json.nat attempts).nat64?.bind fun attempts => some (RecoveryCount.mk rule attempts)) =
      some y ↔ _
  simp only [RecoveryRule.roundTrips.bind_eq_some_iff, Json.nat64_roundTrips.bind_eq_some_iff, Fits,
    Option.some.injEq, and_assoc]

/-- Counts are written as a list, in the order in which they are kept. -/
theorem RecoveryStats.roundTrips : RoundTrips RecoveryStats.toJson ofJson? Fits := by
  rintro ⟨counts⟩ y
  show (((Json.listOf RecoveryCount.toJson counts).list? RecoveryCount.ofJson?).bind fun counts =>
    some (RecoveryStats.mk counts)) = some y ↔ _
  simp only [RecoveryCount.roundTrips.listOf.bind_eq_some_iff, Fits, Option.some.injEq]

/-- Tokens and rules are told apart by the form, so a token type is never read as a rule. -/
theorem SuggestionId.roundTrips : RoundTrips SuggestionId.toJson ofJson? Fits := by
  intro x y
  cases x with
  | token tokenType =>
      show ((Json.int tokenType).int32?.bind fun tokenType => some (token tokenType)) = some y ↔ _
      simp only [Json.int32_roundTrips.bind_eq_some_iff, Fits, Option.some.injEq]
  | rule index =>
      show ((Json.nat index).nat64?.bind fun index => some (rule index)) = some y ↔ _
      simp only [Json.nat64_roundTrips.bind_eq_some_iff, Fits, Option.some.injEq]

/-- Texts are always in range, so only what is suggested can be refused. -/
theorem Suggestion.roundTrips : RoundTrips Suggestion.toJson ofJson? Fits := by
  rintro ⟨id, name, contexts⟩ y
  show ((SuggestionId.ofJson? id.toJson).bind fun id => (Json.text name).text?.bind fun name =>
    ((Json.listOf (.listOf Json.text) contexts).list? (Json.list? Json.text?)).bind fun contexts =>
      some (Suggestion.mk id name contexts)) = some y ↔ _
  simp only [SuggestionId.roundTrips.bind_eq_some_iff, Json.text_roundTrips.bind_eq_some_iff,
    Json.text_roundTrips.listOf.listOf.bind_eq_some_iff, Fits, Option.some.injEq, implies_true,
    true_and]

/-- A completion is the list of its suggestions and the counts of recoveries. -/
theorem Completion.roundTrips : RoundTrips Completion.toJson ofJson? Fits := by
  rintro ⟨suggestions, stats⟩ y
  show (((Json.listOf Suggestion.toJson suggestions).list? Suggestion.ofJson?).bind
    fun suggestions => (RecoveryStats.ofJson? stats.toJson).bind fun stats =>
      some (Completion.mk suggestions stats)) = some y ↔ _
  simp only [Suggestion.roundTrips.listOf.bind_eq_some_iff,
    RecoveryStats.roundTrips.bind_eq_some_iff, Fits, Option.some.injEq, and_assoc]

/-- A network, the network of a lexer or a completion is read back from what is written as itself,
provided that its numbers are in the range of their types. Otherwise nothing is read. -/
theorem exchange_round_trips :
    (∀ n m : Network, Network.ofJson? n.toJson = some m ↔ n.Fits ∧ n = m) ∧
      (∀ l m : LexerNetwork, LexerNetwork.ofJson? l.toJson = some m ↔ l.Fits ∧ l = m) ∧
      ∀ c d : Completion, Completion.ofJson? c.toJson = some d ↔ c.Fits ∧ c = d :=
  ⟨Network.roundTrips, LexerNetwork.roundTrips, Completion.roundTrips⟩

-- The greatest and the least number of a type are read back, and the one above is not.
example :
    Completion.ofJson?
        (Completion.mk [⟨.token int32Min, "", [[], ["a"]]⟩, ⟨.rule nat64Max, "b", []⟩] ⟨[]⟩).toJson
      = some ⟨[⟨.token int32Min, "", [[], ["a"]]⟩, ⟨.rule nat64Max, "b", []⟩], ⟨[]⟩⟩ := by
  rfl

example : Network.ofJson? (Network.mk #[] #[nat32Max + 1] #[0] int32Max).toJson = none := by
  rfl

end Caret
