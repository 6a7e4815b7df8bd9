/-!
# Causes of failure

Each way in which building or using a grammar can fail, and its wording.
-/

namespace GrammarRepair

/-- The shapes of rules, as failures name them.  A rule that binds its own
name counts as a reference. -/
inductive RuleKind where
  | literal
  | range
  | sequence
  | choice
  | reference
  | capped
deriving DecidableEq, Repr, Inhabited

/-- The word for a shape. -/
def RuleKind.label : RuleKind → String
  | .literal => "terminal"
  | .range => "range"
  | .sequence => "concat"
  | .choice => "alternative"
  | .reference => "reference"
  | .capped => "length-constrained"

/-- Why a grammar could not be built or used. -/
inductive GrammarError where
  /-- A rule of this shape has no place for a suggestion. -/
  | suggestionUnsupported (kind : RuleKind)
  /-- Every name drawn for this stem was taken. -/
  | namesExhausted (stem : String) (attempts : Nat)
  /-- One source defines a name twice. -/
  | duplicateRule (name : String)
  /-- A definition uses a suggestion that the builder does not know. -/
  | unknownSuggestion (name rule : String)
  /-- No rule has this name. -/
  | undefinedRule (name : String)
deriving DecidableEq, Repr, Inhabited

/-- The wording of a failure. -/
def GrammarError.message : GrammarError → String
  | .suggestionUnsupported kind =>
      "a " ++ kind.label ++ " rule does not accept a suggestion function"
  | .namesExhausted stem attempts =>
      "could not mint a unique rule name with prefix '" ++ stem ++ "' after " ++
        toString attempts ++ " attempts"
  | .duplicateRule name => "duplicate rule name '" ++ name ++ "'"
  | .unknownSuggestion name rule =>
      "undefined suggestion '" ++ name ++ "' in rule '" ++ rule ++ "'"
  | .undefinedRule name => "undefined rule '" ++ name ++ "'"

end GrammarRepair
