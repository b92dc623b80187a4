import Caret.Completion.Basic
import Caret.Json.Network

/-!
# `Caret.Json.Completion`: tokens, completions and configurations in the exchange format

A configuration is read with its defaults: a field that is not given keeps its default value.
-/

set_option autoImplicit false

namespace Caret

namespace TextRange

/-- Write a range. -/
def toJson (r : TextRange) : Json := .record [("start", .nat r.start), ("end", .nat r.stop)]

/-- Read a range. -/
def ofJson? (j : Json) : Option TextRange := do
  match ← j.fields? ["start", "end"] with
  | [start, stop] => return ⟨← start.nat32?, ← stop.nat32?⟩
  | _ => none

end TextRange

namespace Token

/-- Write a token. -/
def toJson (t : Token) : Json :=
  .record [("token_type", .int t.tokenType), ("channel", .int t.channel), ("text", .text t.text),
    ("range", t.range.toJson)]

/-- Read a token. -/
def ofJson? (j : Json) : Option Token := do
  match ← j.fields? ["token_type", "channel", "text", "range"] with
  | [tokenType, channel, text, range] =>
      return ⟨← tokenType.int32?, ← channel.int32?, ← text.text?, ← TextRange.ofJson? range⟩
  | _ => none

end Token

namespace RecoveryTarget

/-- Write a recovery target. -/
def toJson : RecoveryTarget → Json
  | .goToRule rule => .form "GoToRule" (.nat rule)
  | .finishRule => .text "FinishRule"

/-- Read a recovery target. -/
def ofJson? (j : Json) : Option RecoveryTarget := do
  let (name, value) ← j.form?
  match name with
  | "GoToRule" => return .goToRule (← (← value).nat64?)
  | "FinishRule" => if Json.isBare value then some .finishRule else none
  | _ => none

end RecoveryTarget

namespace RecoveryRule

/-- Write a recovery rule. -/
def toJson (r : RecoveryRule) : Json :=
  .record [("if_in_rule", .nat r.inRule), ("and_find_token", .int r.token),
    ("then", r.target.toJson), ("skip_one", .bool r.skipOne), ("nested", .bool r.nested)]

/-- Read a recovery rule. -/
def ofJson? (j : Json) : Option RecoveryRule := do
  match ← j.fields? ["if_in_rule", "and_find_token", "then", "skip_one", "nested"] with
  | [inRule, token, target, skipOne, nested] =>
      return ⟨← inRule.nat64?, ← token.int32?, ← RecoveryTarget.ofJson? target, ← skipOne.bool?,
        ← nested.bool?⟩
  | _ => none

end RecoveryRule

namespace RecoveryCount

/-- Write how often a recovery rule was used. -/
def toJson (c : RecoveryCount) : Json :=
  .record [("rule", c.rule.toJson), ("attempts", .nat c.attempts)]

/-- Read how often a recovery rule was used. -/
def ofJson? (j : Json) : Option RecoveryCount := do
  match ← j.fields? ["rule", "attempts"] with
  | [rule, attempts] => return ⟨← RecoveryRule.ofJson? rule, ← attempts.nat64?⟩
  | _ => none

end RecoveryCount

namespace RecoveryStats

/-- Write recovery statistics. -/
def toJson (s : RecoveryStats) : Json :=
  .record [("recoveries", .listOf RecoveryCount.toJson s.counts)]

/-- Read recovery statistics. -/
def ofJson? (j : Json) : Option RecoveryStats := do
  match ← j.fields? ["recoveries"] with
  | [counts] => return ⟨← counts.list? RecoveryCount.ofJson?⟩
  | _ => none

end RecoveryStats

namespace SuggestionId

/-- Write what is suggested. -/
def toJson : SuggestionId → Json
  | .token tokenType => .form "Token" (.int tokenType)
  | .rule index => .form "Rule" (.nat index)

/-- Read what is suggested. -/
def ofJson? (j : Json) : Option SuggestionId := do
  let (name, value) ← j.form?
  match name with
  | "Token" => return .token (← (← value).int32?)
  | "Rule" => return .rule (← (← value).nat64?)
  | _ => none

end SuggestionId

namespace Suggestion

/-- Write a suggestion. -/
def toJson (s : Suggestion) : Json :=
  .record [("id", s.id.toJson), ("name", .text s.name),
    ("contexts", .listOf (.listOf Json.text) s.contexts)]

/-- Read a suggestion. -/
def ofJson? (j : Json) : Option Suggestion := do
  match ← j.fields? ["id", "name", "contexts"] with
  | [id, name, contexts] =>
      return ⟨← SuggestionId.ofJson? id, ← name.text?, ← contexts.list? (Json.list? Json.text?)⟩
  | _ => none

end Suggestion

namespace Completion

/-- Write a completion. -/
def toJson (c : Completion) : Json :=
  .record [("suggestions", .listOf Suggestion.toJson c.suggestions), ("stats", c.stats.toJson)]

/-- Read a completion. -/
def ofJson? (j : Json) : Option Completion := do
  match ← j.fields? ["suggestions", "stats"] with
  | [suggestions, stats] =>
      return ⟨← suggestions.list? Suggestion.ofJson?, ← RecoveryStats.ofJson? stats⟩
  | _ => none

end Completion

namespace Config

/-- Write a configuration. -/
def toJson (c : Config) : Json :=
  .record [("ignore_suggestions_in_non_default_channels", .bool c.ignoreOffChannel),
    ("initial_rule", .nat c.initialRule),
    ("suggest_rules", .listOf Json.nat c.reported),
    ("recovery", .listOf RecoveryRule.toJson c.recovery),
    ("include_non_default_channel_tokens", .bool c.includeOffChannel),
    ("first_token_cache", .bool c.useFirstTokens)]

/-- A field that keeps its default value if it is not given. -/
def fieldOr {α : Type} (default : α) (read : Json → Option α) : Option Json → Option α
  | none => some default
  | some j => read j

/-- Read a configuration. -/
def ofJson? (j : Json) : Option Config := do
  match ← j.slots? ["ignore_suggestions_in_non_default_channels", "initial_rule", "suggest_rules",
      "recovery", "include_non_default_channel_tokens", "first_token_cache"] with
  | [ignoreOffChannel, initialRule, reported, recovery, includeOffChannel, useFirstTokens] =>
      return {
        ignoreOffChannel := ← fieldOr default.ignoreOffChannel Json.bool? ignoreOffChannel
        initialRule := ← fieldOr default.initialRule Json.nat64? initialRule
        reported := RuleSet.insertAll [] (← fieldOr [] (Json.list? Json.nat64?) reported)
        recovery := ← fieldOr default.recovery (Json.list? RecoveryRule.ofJson?) recovery
        includeOffChannel := ← fieldOr default.includeOffChannel Json.bool? includeOffChannel
        useFirstTokens := ← fieldOr default.useFirstTokens Json.bool? useFirstTokens }
  | _ => none

end Config

end Caret
