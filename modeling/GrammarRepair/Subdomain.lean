import GrammarRepair.CharacterClass

/-!
# Subdomain names

The names of RFC 1035, section 2.3.1: labels joined by dots, each a letter,
optionally followed by letters, digits and hyphens up to a letter or digit.
Where a character does not fit, the rules repair it: the first and the last
character of a label become `x`, an interior `@` becomes `-at-` or a hyphen, and
any other interior character except the dot becomes a hyphen.
-/

namespace GrammarRepair.Subdomain

/-- The name of the rule. -/
def name : String := "rfc1035-subdomain"

/-- The longest name, in bytes. -/
def maxLength : Nat := 63

/-- A label, with a suggestion for its interior characters.  A bad first
character is replaced by, or follows, an `x`; a bad last one is replaced by
it. -/
def label (suggestion : Option Suggestion) : Build Rule := do
  let first := CharacterClass.letter (some (.insertOrReplace [['x']]))
  let interior := Rule.optional (← CharacterClass.letterDigitHyphenRun suggestion)
  let last := CharacterClass.letterOrDigit (some (.replace [['x']]))
  return .concat [first, .optional (.concat [interior, last])]

/-- Repairs of interior characters: `@` is written out or becomes a hyphen, and
all else but the dot becomes a hyphen. -/
def interiorRepair : Suggestion :=
  .merge [.replaceWhen ["-at-".toList, ['-']] '@', .replaceUnless '-' '.']

/-- One label, or one label, a dot and the rule again. -/
def body (label : Rule) : Rule :=
  .alternative [label, .concat [label, .literal ['.'], .reference name]]

/-- Register the rule of subdomain names; the rule returned also has the
ceiling. -/
def register : Build Rule := do
  let label ← label (some interiorRepair)
  let subdomain ← Build.defineBound name (body label)
  return .capped maxLength subdomain

/-- A grammar that has the rule, and the rule. -/
def grammar (supply : NameSupply) : Except GrammarError (Grammar × Rule) :=
  match Build.run register { supply } with
  | (.ok rule, builder) => .ok (builder.grammar, rule)
  | (.error error, _) => .error error

end GrammarRepair.Subdomain
