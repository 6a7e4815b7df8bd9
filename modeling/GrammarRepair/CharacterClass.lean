import GrammarRepair.Builder

/-!
# Character classes of identifiers

Letters, digits and hyphens of ASCII, each class with an optional suggestion for
characters outside it, and runs of at least one character of a class.
-/

namespace GrammarRepair.CharacterClass

/-- The digits. -/
def digits : CharRange := ⟨'0', '9', by decide⟩

/-- The lower-case letters. -/
def lowerLetters : CharRange := ⟨'a', 'z', by decide⟩

/-- The upper-case letters. -/
def upperLetters : CharRange := ⟨'A', 'Z', by decide⟩

/-- A digit. -/
def digit (suggestion : Option Suggestion) : Rule :=
  .range digits suggestion

/-- A letter of either case. -/
def letter (suggestion : Option Suggestion) : Rule :=
  .choice [.range lowerLetters none, .range upperLetters none] suggestion

/-- A lower-case letter. -/
def lowerLetter (suggestion : Option Suggestion) : Rule :=
  .range lowerLetters suggestion

/-- A letter or a digit. -/
def letterOrDigit (suggestion : Option Suggestion) : Rule :=
  .choice [letter none, digit none] suggestion

/-- A lower-case letter or a digit. -/
def lowerLetterOrDigit (suggestion : Option Suggestion) : Rule :=
  .choice [lowerLetter none, digit none] suggestion

/-- The hyphen. -/
def hyphen : Rule :=
  .literal ['-']

/-- A letter, a digit or a hyphen. -/
def letterDigitOrHyphen (suggestion : Option Suggestion) : Rule :=
  .choice [letter none, digit none, hyphen] suggestion

/-- A lower-case letter, a digit or a hyphen. -/
def lowerLetterDigitOrHyphen (suggestion : Option Suggestion) : Rule :=
  .choice [lowerLetter none, digit none, hyphen] suggestion

/-- One item, or one item and the rule `name` again. -/
def runBody (name : String) (item : Rule) : Rule :=
  .orElse item (.andThen item (.reference name))

/-- At least one item, under a fresh name with the given stem. -/
def runOf (stem : String) (item : Rule) : Build Rule := do
  let name ← Build.freshName stem
  Build.defineBound name (runBody name item)

/-- At least one letter, digit or hyphen. -/
def letterDigitHyphenRun (suggestion : Option Suggestion) : Build Rule :=
  runOf "ldh-str" (letterDigitOrHyphen suggestion)

/-- At least one lower-case letter, digit or hyphen. -/
def lowerLetterDigitHyphenRun (suggestion : Option Suggestion) : Build Rule :=
  runOf "lower-ldh-str" (lowerLetterDigitOrHyphen suggestion)

end GrammarRepair.CharacterClass
