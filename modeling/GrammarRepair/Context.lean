import GrammarRepair.Grammar

/-!
# Contexts of matching

A context says what names mean and which of them are being matched.  Names are
looked up among the inline bindings first, the innermost first, and then in the
grammar.  Entering a name on an input leaves a frame, and a name is not entered
on an input again while that frame stands: this keeps recursion that consumes
nothing from running forever.
-/

namespace GrammarRepair

/-- A name that was entered, and the input it was entered on. -/
structure Frame where
  name : String
  input : Text
deriving DecidableEq, Repr, Inhabited

/-- What names mean, and which are being matched. -/
structure Context where
  grammar : Grammar
  bindings : List (String × Rule) := []
  frames : List Frame := []
deriving Inhabited

namespace Context

/-- A grammar with nothing bound and nothing entered. -/
def fresh (grammar : Grammar) : Context :=
  { grammar }

/-- Whether a name has been entered on this very input. -/
def contains (ctx : Context) (name : String) (input : Text) : Bool :=
  decide (Frame.mk name input ∈ ctx.frames)

/-- The number of frames. -/
def depth (ctx : Context) : Nat :=
  ctx.frames.length

/-- Enter a name on an input, unless it has been entered there. -/
def enter? (ctx : Context) (name : String) (input : Text) : Option Context :=
  if ctx.contains name input then none
  else some { ctx with frames := ⟨name, input⟩ :: ctx.frames }

/-- Let a name stand for a rule. -/
def bind (ctx : Context) (name : String) (rule : Rule) : Context :=
  { ctx with bindings := (name, rule) :: ctx.bindings }

/-- The rule a name stands for: the innermost binding, else the grammar's. -/
def resolve? (ctx : Context) (name : String) : Option Rule :=
  match ctx.bindings.lookup name with
  | some rule => some rule
  | none => ctx.grammar.find? name

/-- The rules that names can stand for. -/
def rules (ctx : Context) : List Rule :=
  ctx.bindings.map Prod.snd ++ ctx.grammar.entries.map Prod.snd

/-- Every name that occurs as a reference in a bound or a named rule. -/
def mentions (ctx : Context) : List String :=
  Rule.mentionsOfAll ctx.rules

theorem contains_iff (ctx : Context) (name : String) (input : Text) :
    ctx.contains name input = true ↔ Frame.mk name input ∈ ctx.frames := by
  simp [contains]

theorem enter?_eq_some_iff
    {ctx child : Context} {name : String} {input : Text} :
    ctx.enter? name input = some child ↔
      ctx.contains name input = false ∧
        child = { ctx with frames := ⟨name, input⟩ :: ctx.frames } := by
  cases hin : ctx.contains name input
  · simp only [enter?, hin, Bool.false_eq_true, if_false, Option.some.injEq, true_and]
    exact eq_comm
  · simp [enter?, hin]

theorem enter?_eq_none_iff {ctx : Context} {name : String} {input : Text} :
    ctx.enter? name input = none ↔ ctx.contains name input = true := by
  unfold enter?
  split <;> simp_all

theorem resolve?_bind (ctx : Context) (name other : String) (rule : Rule) :
    (ctx.bind name rule).resolve? other =
      if other = name then some rule else ctx.resolve? other := by
  by_cases h : other = name
  · simp [resolve?, bind, h]
  · have hbeq : (other == name) = false := by simpa using h
    simp [resolve?, bind, List.lookup_cons, hbeq, h]

/-- Binding a name changes the meaning of that name only. -/
theorem resolve?_bind_eq (ctx : Context) (name : String) (rule : Rule) :
    (ctx.bind name rule).resolve? =
      fun other => if other = name then some rule else ctx.resolve? other :=
  funext fun other => resolve?_bind ctx name other rule

/-- A rule found by name is one of the rules. -/
theorem mem_rules_of_resolve?
    {ctx : Context} {name : String} {rule : Rule}
    (hresolve : ctx.resolve? name = some rule) :
    rule ∈ ctx.rules := by
  unfold resolve? at hresolve
  rw [rules, List.mem_append]
  split at hresolve
  · rename_i found hlookup
    cases hresolve
    obtain ⟨before, after, hsplit, -⟩ := List.lookup_eq_some_iff.mp hlookup
    exact .inl (by simp [hsplit])
  · exact .inr (List.mem_map.mpr ⟨_, Table.mem_entries_of_find? hresolve, rfl⟩)

/-- What a rule found by name mentions, the context mentions. -/
theorem mentions_subset_of_resolve?
    {ctx : Context} {name : String} {rule : Rule}
    (hresolve : ctx.resolve? name = some rule) :
    rule.mentions ⊆ ctx.mentions := by
  intro other hother
  rw [mentions, Rule.mentionsOfAll_eq_flatMap, List.mem_flatMap]
  exact ⟨rule, mem_rules_of_resolve? hresolve, hother⟩

end Context
end GrammarRepair
