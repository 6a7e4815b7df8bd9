import GrammarRepair.Builder.Supply
import GrammarRepair.Grammar
import GrammarRepair.Rule.Format
import GrammarRepair.Text.Quoted

/-!
# Building grammars

A builder holds the rules named so far, the suggestions that sources may use by
name, and a supply of fresh names.  A `Build` is a step that uses a builder; a
step that fails keeps what it had registered before (`run_bind`).

Unbounded repetition has no rule shape of its own.  It is a reference to a fresh
name whose rule offers nothing, one copy, or one copy and the name again; the
rule that `repeated` returns binds that name, so it also works in a grammar that
does not have it.
-/

namespace GrammarRepair

/-- The state of a grammar that is being built. -/
structure Builder where
  grammar : Grammar := Grammar.empty
  suggestions : Table Suggestion := Table.empty
  supply : NameSupply
deriving Inhabited

/-- A step of building, which may fail. -/
abbrev Build := ExceptT GrammarError (StateM Builder)

namespace Build

variable {α β : Type}

/-- The outcome of a step, and the builder after it. -/
def run (step : Build α) (builder : Builder) : Except GrammarError α × Builder :=
  StateT.run (ExceptT.run step) builder

@[simp] theorem run_pure (a : α) (builder : Builder) :
    run (pure a) builder = (.ok a, builder) := rfl

@[simp] theorem run_throw (error : GrammarError) (builder : Builder) :
    run (throw error : Build α) builder = (.error error, builder) := rfl

theorem run_bind (step : Build α) (next : α → Build β) (builder : Builder) :
    run (step >>= next) builder =
      match run step builder with
      | (.ok a, after) => run (next a) after
      | (.error error, after) => (.error error, after) := by
  simp only [run, ExceptT.run_bind, StateT.run_bind]
  rcases StateT.run (ExceptT.run step) builder with ⟨_ | _, after⟩ <;> rfl

@[simp] theorem run_get (builder : Builder) :
    run get builder = (.ok builder, builder) := rfl

@[simp] theorem run_modify (change : Builder → Builder) (builder : Builder) :
    run (modify change) builder = (.ok (), change builder) := rfl

/-- A step that succeeds or fails as a computed result does. -/
def liftExcept (result : Except GrammarError α) : Build α :=
  match result with
  | .ok a => pure a
  | .error error => throw error

/-- How many draws a fresh name may take. -/
def nameAttempts : Nat := 16

/-- Give a rule a name, in place of any earlier rule of that name, and return
the rule. -/
def define (name : String) (rule : Rule) : Build Rule := do
  modify fun builder => { builder with grammar := builder.grammar.insert name rule }
  return rule

/-- Give a rule a name and return it bound to that name. -/
def defineBound (name : String) (body : Rule) : Build Rule := do
  let body ← define name body
  return .bound name body

/-- A name with this stem that no rule has yet. -/
def freshName (stem : String) : Build String := do
  let builder ← get
  let (found, supply) := builder.supply.fresh (Table.contains builder.grammar) stem nameAttempts
  set { builder with supply }
  match found with
  | some name => return name
  | none => throw (.namesExhausted stem nameAttempts)

/-- Make a suggestion known by a name, in place of any earlier one. -/
def suggest (name : String) (suggestion : Suggestion) : Build Unit :=
  modify fun builder => { builder with suggestions := builder.suggestions.insert name suggestion }

/-- Any number of copies of a rule, as the body of the rule `name`. -/
def anyNumber (name : String) (rule : Rule) : Rule :=
  .alternative [.epsilon, rule, .concat [rule, .reference name]]

/-- At least `low` copies of a rule, and at most `high` if that is given. -/
def repeated (low : Nat) (high : Option Nat) (rule : Rule) : Build Rule :=
  match high with
  | some high => return .repeatBetween low high rule
  | none => do
      let name ← freshName "seq"
      let tail ← defineBound name (anyNumber name rule)
      return .concat [.copies low rule, tail]

end Build

namespace Builder

/-- Texts with a comma between neighbours. -/
def commaSeparated : List Text → Text
  | [] => []
  | [text] => text
  | text :: texts => text ++ [',', ' '] ++ commaSeparated texts

/-- One named rule as a report shows it. -/
def formatEntry (entry : String × Rule) : Text :=
  Text.quoted entry.1.toList ++ ": ".toList ++ entry.2.describe

/-- The builder as a report shows it: its rules and the names of its
suggestions, sorted. -/
def format (builder : Builder) : Text :=
  "GrammarBuilder \x7b registry: NameRegistry \x7b rules: \x7b".toList ++
    commaSeparated (builder.grammar.entries.map formatEntry) ++
    "\x7d \x7d, suggestions: [".toList ++
    commaSeparated ((ordered (fun a b => decide (a ≤ b)) builder.suggestions.names).map
      fun name => Text.quoted name.toList) ++
    "] \x7d".toList

end Builder
end GrammarRepair
