import GrammarRepair.Ordered
import GrammarRepair.Rule
import GrammarRepair.Table

/-!
# Grammars

A grammar gives names to rules.  Rules refer to each other by name, and a name
that no rule has simply matches nothing; `unresolved` lists such names.
-/

namespace GrammarRepair

/-- Named rules. -/
abbrev Grammar := Table Rule

namespace Grammar

/-- The grammar without rules. -/
def empty : Grammar := Table.empty

/-- The names of the rules, sorted. -/
def sortedNames (grammar : Grammar) : List String :=
  ordered (fun a b => decide (a ≤ b)) (Table.names grammar)

/-- The references of all rules. -/
def references (grammar : Grammar) : List String :=
  Rule.referencesOfAll (grammar.entries.map Prod.snd)

/-- The names that rules refer to and no rule has, sorted, each once. -/
def unresolved (grammar : Grammar) : List String :=
  ordered (fun a b => decide (a ≤ b)) (grammar.references.filter fun name => !grammar.contains name)

/-- A short description: how many rules there are. -/
def describe (grammar : Grammar) : String :=
  "Grammar(" ++ toString grammar.size ++ " rules)"

theorem mem_unresolved (grammar : Grammar) (name : String) :
    name ∈ grammar.unresolved ↔
      name ∈ grammar.references ∧ grammar.contains name = false := by
  simp [unresolved]

end Grammar
end GrammarRepair
