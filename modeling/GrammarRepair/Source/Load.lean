import GrammarRepair.Builder
import GrammarRepair.Source.Reader

/-!
# Loading sources

Loading a source gives each defined name the rule that its expression stands
for.  Nothing is registered unless the source is well formed and defines no name
twice.  Definitions are then registered one by one, so a definition that cannot
be built leaves the earlier ones in place.
-/

namespace GrammarRepair

/-- Why a source could not be loaded. -/
inductive LoadError where
  /-- There is no source, or it is not text. -/
  | unreadable
  /-- The source is not well formed. -/
  | malformed (error : Source.SyntaxError)
  /-- The source is well formed, but cannot be built. -/
  | invalid (error : GrammarError)
deriving DecidableEq, Repr, Inhabited

namespace Source

mutual

/-- The rule that an expression in the definition of `name` stands for.  A
suggestion must be known before anything inside is built, and attaching it comes
last. -/
def Expr.build (name : String) : Expr → Build Rule
  | .literal text => return .literal text
  | .range low high => return .range (.ofBounds low high) none
  | .reference other => return .reference other
  | .sequence items => do
      let rules ← buildAll name items
      return .concat rules
  | .choice branches => do
      let rules ← buildAll name branches
      return .alternative rules
  | .repeated inner low high => do
      let rule ← inner.build name
      Build.repeated low high rule
  | .suggesting inner suggestion => do
      let builder ← get
      match builder.suggestions.find? suggestion with
      | none => throw (.unknownSuggestion suggestion name)
      | some found => do
          let rule ← inner.build name
          Build.liftExcept (rule.withSuggestion found)

/-- The rules that expressions stand for, in order. -/
def buildAll (name : String) : List Expr → Build (List Rule)
  | [] => return []
  | expr :: exprs => do
      let rule ← expr.build name
      let rules ← buildAll name exprs
      return rule :: rules

end

/-- Build a definition and register it. -/
def Definition.register (definition : Definition) : Build Unit := do
  let rule ← definition.body.build definition.name
  let _ ← Build.define definition.name (rule.withCeiling definition.ceiling)

/-- The first name that stands in the list a second time. -/
def firstRepeated? (seen : List String) : List String → Option String
  | [] => none
  | name :: names => if name ∈ seen then some name else firstRepeated? (name :: seen) names

/-- Build and register definitions, in order. -/
def registerAll : List Definition → Build Unit
  | [] => return ()
  | definition :: definitions => do
      definition.register
      registerAll definitions

/-- Register definitions whose names are different. -/
def register (definitions : List Definition) : Build Unit :=
  match firstRepeated? [] (definitions.map Definition.name) with
  | some name => throw (.duplicateRule name)
  | none => registerAll definitions

/-- Load a source into a builder. -/
def load (source : Text) (builder : Builder) : Except LoadError Unit × Builder :=
  match read source with
  | .error error => (.error (.malformed error), builder)
  | .ok definitions =>
      let (outcome, builder) := Build.run (register definitions) builder
      (outcome.mapError LoadError.invalid, builder)

end Source

namespace Grammar

/-- The grammar of a source. -/
def ofSource (supply : NameSupply) (source : Text) : Except LoadError Grammar :=
  match Source.load source { supply } with
  | (.ok (), builder) => .ok builder.grammar
  | (.error error, _) => .error error

/-- The grammar of a file with these contents, if there is such a file; its
bytes must be UTF-8. -/
def ofContents (supply : NameSupply) (contents : Option ByteArray) : Except LoadError Grammar :=
  match contents.bind String.fromUTF8? with
  | some source => ofSource supply source.toList
  | none => .error .unreadable

end Grammar
end GrammarRepair
