import GrammarRepair.Source.Expr
import Mathlib.Data.Char
import Mathlib.Order.Lattice

/-!
# Languages of definitions

The definitions of a source give every expression a language: a text alone, the
characters of a range, products, unions and powers, and for a name the language
of its definition.  `Produces` is the least such assignment, so a name without a
definition has the empty language.  Ceilings play no part in it.

`Reaches` says which names matching can come to before it has consumed anything.
A definition that reaches its own name is left-recursive; a repetition of
something that may be empty is not, since it repeats no definition.
-/

namespace GrammarRepair.Source

namespace Expr

mutual

/-- The names an expression refers to. -/
def references : Expr → List String
  | .literal _ => []
  | .range _ _ => []
  | .reference name => [name]
  | .sequence items => referencesOfAll items
  | .choice branches => referencesOfAll branches
  | .repeated inner _ _ => inner.references
  | .suggesting inner _ => inner.references

/-- The names several expressions refer to. -/
def referencesOfAll : List Expr → List String
  | [] => []
  | expr :: exprs => expr.references ++ referencesOfAll exprs

end

end Expr

/-- The names that a definition defines and refers to. -/
def Definition.names (definition : Definition) : List String :=
  definition.name :: definition.body.references

variable (definitions : List Definition)

mutual

/-- The text belongs to the language of the expression. -/
inductive Produces : Expr → Text → Prop
  | literal (text : Text) :
      Produces (.literal text) text
  | range {low high c : Char} (hlow : low ≤ c) (hhigh : c ≤ max low high) :
      Produces (.range low high) [c]
  | reference {definition : Definition} {text : Text} (hmem : definition ∈ definitions)
      (hbody : Produces definition.body text) :
      Produces (.reference definition.name) text
  | sequence {items : List Expr} {text : Text} (hitems : ProducesAll items text) :
      Produces (.sequence items) text
  | choice {branches : List Expr} {branch : Expr} {text : Text} (hmem : branch ∈ branches)
      (hbranch : Produces branch text) :
      Produces (.choice branches) text
  | repeated {inner : Expr} {low count : Nat} {high : Option Nat} {text : Text}
      (hlow : low ≤ count) (hhigh : ∀ bound ∈ high, count ≤ max low bound)
      (hcopies : ProducesAll (List.replicate count inner) text) :
      Produces (.repeated inner low high) text
  | suggesting {inner : Expr} {suggestion : String} {text : Text} (hinner : Produces inner text) :
      Produces (.suggesting inner suggestion) text

/-- The text belongs to the product of the languages of the expressions. -/
inductive ProducesAll : List Expr → Text → Prop
  | nil : ProducesAll [] []
  | cons {item : Expr} {items : List Expr} {head tail : Text} (hhead : Produces item head)
      (htail : ProducesAll items tail) :
      ProducesAll (item :: items) (head ++ tail)

end

mutual

/-- Matching the expression may come to the name before any character is
consumed. -/
inductive Reaches : Expr → String → Prop
  | reference (name : String) :
      Reaches (.reference name) name
  | definition {definition : Definition} {name : String} (hmem : definition ∈ definitions)
      (hbody : Reaches definition.body name) :
      Reaches (.reference definition.name) name
  | sequence {items : List Expr} {name : String} (hitems : ReachesAll items name) :
      Reaches (.sequence items) name
  | choice {branches : List Expr} {branch : Expr} {name : String} (hmem : branch ∈ branches)
      (hbranch : Reaches branch name) :
      Reaches (.choice branches) name
  | repeated {inner : Expr} {low : Nat} {high : Option Nat} {name : String}
      (hhigh : ∀ bound ∈ high, 0 < max low bound) (hinner : Reaches inner name) :
      Reaches (.repeated inner low high) name
  | suggesting {inner : Expr} {suggestion name : String} (hinner : Reaches inner name) :
      Reaches (.suggesting inner suggestion) name

/-- The same for expressions in a row: what stands in front of the name has to
be able to produce the empty text. -/
inductive ReachesAll : List Expr → String → Prop
  | head {item : Expr} {items : List Expr} {name : String} (hitem : Reaches item name) :
      ReachesAll (item :: items) name
  | tail {item : Expr} {items : List Expr} {name : String} (hempty : Produces definitions item [])
      (hitems : ReachesAll items name) :
      ReachesAll (item :: items) name

end

/-- Some definition comes back to its own name before anything is consumed. -/
def LeftRecursive : Prop :=
  ∃ definition ∈ definitions, Reaches definitions definition.body definition.name

variable {definitions}

theorem ProducesAll.append
    {items later : List Expr} {head tail : Text}
    (hhead : ProducesAll definitions items head) (htail : ProducesAll definitions later tail) :
    ProducesAll definitions (items ++ later) (head ++ tail) := by
  match hhead with
  | .nil => exact htail
  | .cons hfirst hrest =>
      rw [List.append_assoc]
      exact .cons hfirst (hrest.append htail)

end GrammarRepair.Source
