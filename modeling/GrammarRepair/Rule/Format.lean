import GrammarRepair.Rule
import GrammarRepair.Text.Escaped

/-!
# Written rules

A rule is written much as the grammar notation would write it: sequences and
choices stand in parentheses, the empty sequence is an empty literal.  Three
things have no notation and show only in reports: an attached suggestion, a
bound name and a ceiling.
-/

namespace GrammarRepair.Rule

/-- The mark behind a range or a choice that carries a suggestion. -/
def suggestionMark : Option Suggestion → Text
  | none => []
  | some _ => "@<fn>".toList

/-- An interval of characters; one character alone needs no second end. -/
def formatRange (span : CharRange) : Text :=
  if span.low = span.high then Text.enclosed '\'' [span.low]
  else Text.enclosed '\'' [span.low] ++ "..".toList ++ Text.enclosed '\'' [span.high]

mutual

/-- A rule in writing. -/
def format : Rule → Text
  | .literal text => Text.enclosed '"' text
  | .range span suggestion => formatRange span ++ suggestionMark suggestion
  | .sequence [] => Text.enclosed '"' []
  | .sequence (part :: parts) => '(' :: (part.format ++ formatRest " ".toList parts ++ [')'])
  | .choice [] suggestion => '(' :: ')' :: suggestionMark suggestion
  | .choice (branch :: branches) suggestion =>
      '(' :: (branch.format ++ formatRest " | ".toList branches ++ ')' :: suggestionMark suggestion)
  | .reference name => name.toList
  | .bound name body => name.toList ++ ": ".toList ++ body.format
  | .capped limit inner => inner.format ++ " (max ".toList ++ Nat.toDigits 10 limit ++ [')']

/-- Further rules in writing, each behind a separator. -/
def formatRest (separator : Text) : List Rule → Text
  | [] => []
  | rule :: rules => separator ++ rule.format ++ formatRest separator rules

end

/-- A rule in writing, marked as one. -/
def describe (rule : Rule) : Text :=
  "Rule(".toList ++ rule.format ++ [')']

end GrammarRepair.Rule
