import GrammarRepair.Context

/-!
# Contexts with changed rules

A change of rules, made to every rule of a grammar and every binding, goes along
with all that a context does: a name stands for the changed rule, entering and
binding commute with the change, and the frames stay.
-/

namespace GrammarRepair

namespace Table

variable {α β : Type}

/-- The same names, with changed values. -/
def mapValues (f : α → β) (table : Table α) : Table β where
  entries := table.entries.map fun entry => (entry.1, f entry.2)
  nodup := by simpa [Function.comp_def] using table.nodup

/-- Entries with other names, different ones for different names, and changed
values are looked up by the other names. -/
theorem lookup_map_entries {names : String → String} (hnames : Function.Injective names)
    (f : α → β) (entries : List (String × α)) (name : String) :
    (entries.map fun entry => (names entry.1, f entry.2)).lookup (names name) =
      (entries.lookup name).map f := by
  induction entries with
  | nil => rfl
  | cons entry entries ih =>
      obtain ⟨key, value⟩ := entry
      have hkey : (names name == names key) = (name == key) := by
        rw [Bool.eq_iff_iff, beq_iff_eq, beq_iff_eq, hnames.eq_iff]
      rw [List.map_cons, List.lookup_cons, List.lookup_cons, hkey]
      cases name == key with
      | true => rfl
      | false => exact ih

theorem lookup_map_values (f : α → β) (entries : List (String × α)) (name : String) :
    (entries.map fun entry => (entry.1, f entry.2)).lookup name = (entries.lookup name).map f :=
  lookup_map_entries Function.injective_id f entries name

theorem find?_mapValues (f : α → β) (table : Table α) (name : String) :
    (table.mapValues f).find? name = (table.find? name).map f :=
  lookup_map_values f table.entries name

end Table

namespace Context

variable (f : Rule → Rule) (ctx : Context)

/-- The same context, with changed rules. -/
def mapRules : Context where
  grammar := ctx.grammar.mapValues f
  bindings := ctx.bindings.map fun entry => (entry.1, f entry.2)
  frames := ctx.frames

theorem mapRules_fresh (grammar : Grammar) :
    (fresh grammar).mapRules f = fresh (grammar.mapValues f) := rfl

theorem mapRules_bind (name : String) (rule : Rule) :
    (ctx.bind name rule).mapRules f = (ctx.mapRules f).bind name (f rule) := rfl

theorem resolve?_mapRules (name : String) :
    (ctx.mapRules f).resolve? name = (ctx.resolve? name).map f := by
  simp only [resolve?, mapRules, Table.lookup_map_values, Table.find?_mapValues]
  cases ctx.bindings.lookup name with
  | none => rfl
  | some rule => rfl

theorem enter?_mapRules (name : String) (input : Text) :
    (ctx.mapRules f).enter? name input = (ctx.enter? name input).map (mapRules f) := by
  have hframes : (ctx.mapRules f).contains name input = ctx.contains name input := rfl
  unfold enter?
  rw [hframes]
  split
  · rfl
  · rfl

end Context
end GrammarRepair
