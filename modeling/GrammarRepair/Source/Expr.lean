import GrammarRepair.Text

/-!
# Sources as trees

A source is a list of definitions.  The body of a definition is an expression;
it stands for a rule, but keeps what the source says: ranges as written,
repetitions with their bounds, suggestions by name.
-/

namespace GrammarRepair.Source

/-- The right-hand side of a definition. -/
inductive Expr where
  | literal (text : Text)
  /-- The characters from `low` to `high`, as written. -/
  | range (low high : Char)
  | reference (name : String)
  | sequence (items : List Expr)
  | choice (branches : List Expr)
  /-- At least `low` copies, and at most `high` if that is given. -/
  | repeated (inner : Expr) (low : Nat) (high : Option Nat)
  /-- The inner expression with the suggestion of this name. -/
  | suggesting (inner : Expr) (suggestion : String)
deriving Inhabited

namespace Expr

mutual

/-- Whether two expressions are the same. -/
def same : Expr → Expr → Bool
  | .literal text, .literal text' => text == text'
  | .range low high, .range low' high' => low == low' && high == high'
  | .reference name, .reference name' => name == name'
  | .sequence items, .sequence items' => sameAll items items'
  | .choice branches, .choice branches' => sameAll branches branches'
  | .repeated inner low high, .repeated inner' low' high' =>
      inner.same inner' && low == low' && high == high'
  | .suggesting inner name, .suggesting inner' name' => inner.same inner' && name == name'
  | _, _ => false

/-- Whether two lists of expressions are the same. -/
def sameAll : List Expr → List Expr → Bool
  | [], [] => true
  | expr :: exprs, expr' :: exprs' => expr.same expr' && sameAll exprs exprs'
  | _, _ => false

end

mutual

theorem same_iff {expr expr' : Expr} : expr.same expr' = true ↔ expr = expr' := by
  match expr with
  | .literal _ | .range .. | .reference _ => cases expr' <;> simp [same]
  | .sequence items | .choice items => cases expr' <;> simp [same, sameAll_iff]
  | .repeated inner low high => cases expr' <;> simp [same, same_iff, and_assoc]
  | .suggesting inner name => cases expr' <;> simp [same, same_iff]

theorem sameAll_iff {exprs exprs' : List Expr} : sameAll exprs exprs' = true ↔ exprs = exprs' := by
  match exprs with
  | [] => cases exprs' <;> simp [sameAll]
  | expr :: exprs => cases exprs' <;> simp [sameAll, same_iff, sameAll_iff]

end

instance : DecidableEq Expr := fun _ _ => decidable_of_iff _ same_iff

end Expr

/-- A name, the ceiling declared for it, and what it stands for. -/
structure Definition where
  name : String
  ceiling : Option Nat
  body : Expr
deriving DecidableEq, Inhabited

namespace Expr

/-- Expressions one after the other; a single one stands for itself. -/
def ofItems : List Expr → Expr
  | [item] => item
  | items => .sequence items

/-- Alternative expressions; a single one stands for itself. -/
def ofBranches : List Expr → Expr
  | [branch] => branch
  | branches => .choice branches

/-- Attach the name of a suggestion, if there is one. -/
def withSuggestion (expr : Expr) : Option String → Expr
  | none => expr
  | some name => .suggesting expr name

/-- Repeat within bounds, if there are any. -/
def withQuantifier (expr : Expr) : Option (Nat × Option Nat) → Expr
  | none => expr
  | some (low, high) => .repeated expr low high

end Expr
end GrammarRepair.Source
