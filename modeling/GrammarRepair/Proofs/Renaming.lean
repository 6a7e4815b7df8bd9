import GrammarRepair.Matching.Induction
import GrammarRepair.Proofs.Combinations
import GrammarRepair.Proofs.RuleMap
import GrammarRepair.Repair
import Mathlib.Data.List.Nodup
import Mathlib.Logic.Equiv.Defs

/-!
# Renaming

A permutation of the names renames a rule: its references and the names that it
binds.  It renames a grammar with the names of its rules, and a context with its
bindings and frames.  Matching compares names and does nothing else with them,
so it does not see the difference: a renamed rule matches in the renamed context
what the rule matches in the context.

Only the names that occur in a rule count for its renaming.
-/

namespace GrammarRepair

variable (σ τ : Equiv.Perm String)

/-! ## Rules -/

namespace Rule

mutual

/-- The rule with other names. -/
def rename : Rule → Rule
  | .literal text => .literal text
  | .range span suggestion => .range span suggestion
  | .sequence parts => .sequence (renameAll parts)
  | .choice branches suggestion => .choice (renameAll branches) suggestion
  | .reference name => .reference (σ name)
  | .bound name body => .bound (σ name) body.rename
  | .capped limit inner => .capped limit inner.rename

/-- Several rules with other names. -/
def renameAll : List Rule → List Rule
  | [] => []
  | rule :: rules => rule.rename :: renameAll rules

end

mutual

/-- Every name that occurs in a rule, as a reference or bound. -/
def names : Rule → List String
  | .literal _ => []
  | .range .. => []
  | .sequence parts => namesOfAll parts
  | .choice branches _ => namesOfAll branches
  | .reference name => [name]
  | .bound name body => name :: body.names
  | .capped _ inner => inner.names

/-- The names that occur in several rules. -/
def namesOfAll : List Rule → List String
  | [] => []
  | rule :: rules => rule.names ++ namesOfAll rules

end

theorem renameAll_eq_map (rules : List Rule) : renameAll σ rules = rules.map (rename σ) := by
  induction rules with
  | nil => rfl
  | cons rule rules ih => rw [renameAll, ih, List.map_cons]

theorem namesOfAll_eq_flatMap (rules : List Rule) : namesOfAll rules = rules.flatMap names := by
  induction rules with
  | nil => rfl
  | cons rule rules ih => rw [namesOfAll, ih, List.flatMap_cons]

variable {σ τ}

mutual

/-- Only the names that occur count. -/
theorem rename_congr {rule : Rule} (hagree : ∀ name ∈ rule.names, σ name = τ name) :
    rule.rename σ = rule.rename τ := by
  match rule with
  | .literal text => rfl
  | .range span suggestion => rfl
  | .sequence parts => rw [rename, rename, renameAll_congr hagree]
  | .choice branches suggestion => rw [rename, rename, renameAll_congr hagree]
  | .reference name => rw [rename, rename, hagree name (List.mem_singleton_self name)]
  | .bound name body =>
      have hbody : body.rename σ = body.rename τ :=
        rename_congr fun other hother => hagree other (List.mem_cons_of_mem _ hother)
      rw [rename, rename, hagree name List.mem_cons_self, hbody]
  | .capped limit inner =>
      have hinner : inner.rename σ = inner.rename τ := rename_congr hagree
      rw [rename, rename, hinner]

theorem renameAll_congr {rules : List Rule} (hagree : ∀ name ∈ namesOfAll rules, σ name = τ name) :
    renameAll σ rules = renameAll τ rules := by
  match rules with
  | [] => rfl
  | rule :: rules =>
      have hrule : rule.rename σ = rule.rename τ :=
        rename_congr fun name hname => hagree name (List.mem_append_left _ hname)
      have hrules : renameAll σ rules = renameAll τ rules :=
        renameAll_congr fun name hname => hagree name (List.mem_append_right _ hname)
      rw [renameAll, renameAll, hrule, hrules]

end

variable (σ)

mutual

theorem rename_refl (rule : Rule) : rule.rename (Equiv.refl String) = rule := by
  cases rule with
  | literal text => rfl
  | range span suggestion => rfl
  | sequence parts => rw [rename, renameAll_refl parts]
  | choice branches suggestion => rw [rename, renameAll_refl branches]
  | reference name => rfl
  | bound name body => rw [rename, rename_refl body, Equiv.refl_apply]
  | capped limit inner => rw [rename, rename_refl inner]

theorem renameAll_refl (rules : List Rule) : renameAll (Equiv.refl String) rules = rules := by
  cases rules with
  | nil => rfl
  | cons rule rules => rw [renameAll, rename_refl rule, renameAll_refl rules]

end

/-- A rule stays as it is if the names that occur in it do. -/
theorem rename_eq_self {σ : Equiv.Perm String} {rule : Rule}
    (hfixed : ∀ name ∈ rule.names, σ name = name) :
    rule.rename σ = rule :=
  calc rule.rename σ = rule.rename (Equiv.refl String) := rename_congr hfixed
    _ = rule := rule.rename_refl

/-! Combinations of renamed rules are renamed combinations. -/

theorem rename_concat (rules : List Rule) :
    (concat rules).rename σ = concat (rules.map (rename σ)) := by
  match rules with
  | [] => rfl
  | [rule] => rfl
  | first :: second :: rules => exact congrArg Rule.sequence (renameAll_eq_map σ _)

theorem rename_alternative (rules : List Rule) :
    (alternative rules).rename σ = alternative (rules.map (rename σ)) := by
  rw [alternative, rename, renameAll_eq_map, alternative]

theorem rename_copies (count : Nat) (rule : Rule) :
    (copies count rule).rename σ = copies count (rule.rename σ) := by
  rw [copies, rename_concat, List.map_replicate, copies]

theorem rename_repeatBetween (low high : Nat) (rule : Rule) :
    (repeatBetween low high rule).rename σ = repeatBetween low high (rule.rename σ) := by
  unfold repeatBetween
  split
  · exact rename_copies σ low rule
  · rw [rename_alternative, List.map_map]
    congr 1
    apply List.map_congr_left
    intro count _
    exact rename_copies σ count rule

theorem ceiling?_rename (rule : Rule) : (rule.rename σ).ceiling? = rule.ceiling? := by
  cases rule <;> rfl

theorem rename_withCeiling (rule : Rule) (ceiling : Option Nat) :
    (rule.withCeiling ceiling).rename σ = (rule.rename σ).withCeiling ceiling := by
  cases ceiling <;> rfl

theorem withSuggestion_rename (suggestion : Suggestion) (rule : Rule) :
    (rule.rename σ).withSuggestion suggestion =
      (rule.withSuggestion suggestion).map (rename σ) := by
  match rule with
  | .capped limit inner =>
      rw [rename, withSuggestion, withSuggestion, withSuggestion_rename suggestion inner]
      cases inner.withSuggestion suggestion <;> rfl
  | .literal _ | .range .. | .sequence _ | .choice .. | .reference _ | .bound .. => rfl

/-! Combinations have no names of their own. -/

theorem names_concat (rules : List Rule) : (concat rules).names = rules.flatMap names := by
  match rules with
  | [] => rfl
  | [rule] => exact (List.flatMap_singleton ..).symm
  | first :: second :: rules => exact namesOfAll_eq_flatMap _

theorem names_alternative (rules : List Rule) : (alternative rules).names = rules.flatMap names :=
  namesOfAll_eq_flatMap rules

theorem names_copies_subset (count : Nat) (rule : Rule) :
    (copies count rule).names ⊆ rule.names := by
  intro name hname
  rw [copies, names_concat] at hname
  obtain ⟨copy, hcopy, hname⟩ := List.mem_flatMap.mp hname
  rwa [List.eq_of_mem_replicate hcopy] at hname

theorem names_repeatBetween_subset (low high : Nat) (rule : Rule) :
    (repeatBetween low high rule).names ⊆ rule.names := by
  unfold repeatBetween
  split
  · exact names_copies_subset low rule
  · intro name hname
    rw [names_alternative] at hname
    obtain ⟨copy, hcopy, hname⟩ := List.mem_flatMap.mp hname
    obtain ⟨count, -, rfl⟩ := List.mem_map.mp hcopy
    exact names_copies_subset count rule hname

theorem names_withCeiling (rule : Rule) (ceiling : Option Nat) :
    (rule.withCeiling ceiling).names = rule.names := by
  cases ceiling <;> rfl

theorem names_eq_of_withSuggestion
    {suggestion : Suggestion} {rule suggesting : Rule}
    (hrule : rule.withSuggestion suggestion = .ok suggesting) :
    suggesting.names = rule.names := by
  match rule with
  | .range span _ | .choice branches _ =>
      obtain rfl := Except.ok.inj hrule
      rfl
  | .capped limit inner =>
      rw [withSuggestion] at hrule
      cases hinner : inner.withSuggestion suggestion with
      | error _ => simp [hinner, Except.map] at hrule
      | ok found =>
          rw [hinner] at hrule
          obtain rfl := Except.ok.inj hrule
          have hnames : found.names = inner.names := names_eq_of_withSuggestion hinner
          exact hnames
  | .literal _ | .sequence _ | .reference _ | .bound .. => cases hrule

end Rule

/-! ## Grammars and contexts -/

namespace Grammar

/-- The grammar with other names. -/
def rename (grammar : Grammar) : Grammar where
  entries := grammar.entries.map fun entry => (σ entry.1, entry.2.rename σ)
  nodup := by
    have hkeys : (grammar.entries.map fun entry => (σ entry.1, entry.2.rename σ)).map Prod.fst =
        (grammar.entries.map Prod.fst).map σ := by
      rw [List.map_map, List.map_map]
      rfl
    rw [hkeys]
    exact List.Nodup.map σ.injective grammar.nodup

theorem find?_rename (grammar : Grammar) (name : String) :
    (grammar.rename σ).find? (σ name) = (grammar.find? name).map (Rule.rename σ) :=
  Table.lookup_map_entries σ.injective (Rule.rename σ) grammar.entries name

theorem contains_rename (grammar : Grammar) (name : String) :
    (grammar.rename σ).contains (σ name) = grammar.contains name := by
  rw [Table.contains, find?_rename, Option.isSome_map, Table.contains]

theorem rename_insert (grammar : Grammar) (name : String) (rule : Rule) :
    rename σ (grammar.insert name rule) = (grammar.rename σ).insert (σ name) (rule.rename σ) := by
  have hothers : (grammar.entries.filter (·.1 != name)).map
        (fun entry => (σ entry.1, entry.2.rename σ)) =
      (grammar.entries.map fun entry => (σ entry.1, entry.2.rename σ)).filter (·.1 != σ name) := by
    rw [List.filter_map]
    congr 1
    apply List.filter_congr
    intro entry _
    simp [σ.injective.eq_iff, bne]
  simp only [rename, Table.insert, List.map_cons, hothers]

theorem names_rename (grammar : Grammar) :
    Table.names (grammar.rename σ) = (Table.names grammar).map σ := by
  simp [Table.names, rename]

/-- Only the names of the rules and the names in them count. -/
theorem rename_congr
    {σ τ : Equiv.Perm String} {grammar : Grammar}
    (hnames : ∀ name, grammar.contains name = true → σ name = τ name)
    (hrules : ∀ name rule, grammar.find? name = some rule → ∀ other ∈ rule.names,
      σ other = τ other) :
    grammar.rename σ = grammar.rename τ := by
  have hentries : grammar.entries.map (fun entry => (σ entry.1, entry.2.rename σ)) =
      grammar.entries.map fun entry => (τ entry.1, entry.2.rename τ) := by
    apply List.map_congr_left
    intro entry hentry
    have hfind : grammar.find? entry.1 = some entry.2 := Table.find?_of_mem_entries hentry
    have hname := hnames entry.1 (by simp [Table.contains, hfind])
    have hrule := Rule.rename_congr (hrules entry.1 entry.2 hfind)
    rw [hname, hrule]
  simp only [rename, hentries]

end Grammar

namespace Context

/-- The context with other names. -/
def rename (ctx : Context) : Context where
  grammar := ctx.grammar.rename σ
  bindings := ctx.bindings.map fun entry => (σ entry.1, entry.2.rename σ)
  frames := ctx.frames.map fun frame => ⟨σ frame.name, frame.input⟩

theorem rename_bind (ctx : Context) (name : String) (rule : Rule) :
    (ctx.bind name rule).rename σ = (ctx.rename σ).bind (σ name) (rule.rename σ) := rfl

theorem resolve?_rename (ctx : Context) (name : String) :
    (ctx.rename σ).resolve? (σ name) = (ctx.resolve? name).map (Rule.rename σ) := by
  rw [resolve?, resolve?, rename, Table.lookup_map_entries σ.injective, Grammar.find?_rename]
  cases ctx.bindings.lookup name with
  | none => rfl
  | some rule => rfl

theorem contains_rename (ctx : Context) (name : String) (input : Text) :
    (ctx.rename σ).contains (σ name) input = ctx.contains name input := by
  rw [Bool.eq_iff_iff, contains_iff, contains_iff, rename, List.mem_map]
  constructor
  · rintro ⟨frame, hframe, heq⟩
    obtain ⟨hname, hinput⟩ := Frame.mk.inj heq
    rwa [← σ.injective hname, ← hinput]
  · intro hframe
    exact ⟨_, hframe, rfl⟩

theorem enter?_rename (ctx : Context) (name : String) (input : Text) :
    (ctx.rename σ).enter? (σ name) input = (ctx.enter? name input).map (rename σ) := by
  rw [enter?, enter?, contains_rename]
  cases ctx.contains name input with
  | true => rfl
  | false => rfl

end Context

/-! ## Matching -/

namespace Rule

theorem enumerate_rename_and_parts :
    (∀ (rule : Rule) (ctx : Context) (input : Text),
      (rule.rename σ).enumerate (ctx.rename σ) input = rule.enumerate ctx input) ∧
    ∀ (parts : List Rule) (ctx : Context) (input : Text),
      enumerateSequence (renameAll σ parts) (ctx.rename σ) input =
        enumerateSequence parts ctx input := by
  apply Matching.induction_on_rules_and_parts
  case literal =>
    intro text ctx input
    rw [rename, enumerate_literal, enumerate_literal]
  case range =>
    intro span suggestion ctx input
    cases input with
    | nil => rw [rename, enumerate_range_nil, enumerate_range_nil]
    | cons c rest => rw [rename, enumerate_range_cons, enumerate_range_cons]
  case sequence =>
    intro parts ctx input ih
    rw [rename, enumerate_sequence, enumerate_sequence, ih]
  case choice =>
    intro branches suggestion ctx input ih
    have hbranches : (branches.map (rename σ)).flatMap (enumerate · (ctx.rename σ) input) =
        branches.flatMap (enumerate · ctx input) := by
      rw [List.flatMap_map]
      exact List.flatMap_congr ih
    rw [rename, renameAll_eq_map, enumerate_choice, enumerate_choice, hbranches]
  case reference =>
    intro name ctx input ih
    rw [rename, enumerate_reference, enumerate_reference, Context.resolve?_rename,
      Context.enter?_rename]
    cases hresolve : ctx.resolve? name with
    | none => rfl
    | some target =>
        cases henter : ctx.enter? name input with
        | none => rfl
        | some child => exact ih target child hresolve henter
  case bound =>
    intro name body ctx input ih
    rw [rename, enumerate_bound, enumerate_bound, ← Context.rename_bind, ih]
  case capped =>
    intro limit inner ctx input ih
    rw [rename, enumerate_capped, enumerate_capped, ih]
  case nil =>
    intro ctx input
    rw [renameAll, enumerateSequence_nil, enumerateSequence_nil]
  case cons =>
    intro part parts ctx input ihpart ihparts
    rw [renameAll, enumerateSequence_cons, enumerateSequence_cons, ihpart]
    apply List.flatMap_congr
    intro head hhead
    rw [ihparts head.rest (byteLength_rest_le_of_mem_enumerate hhead)]

/-- Matching does not see which names are used. -/
theorem enumerate_rename (rule : Rule) (ctx : Context) (input : Text) :
    (rule.rename σ).enumerate (ctx.rename σ) input = rule.enumerate ctx input :=
  (enumerate_rename_and_parts σ).1 rule ctx input

end Rule

theorem Grammar.repairs_rename (grammar : Grammar) (rule : Rule) (input : Text) :
    (grammar.rename σ).repairs (rule.rename σ) input = grammar.repairs rule input := by
  have hfresh : Context.fresh (grammar.rename σ) = (Context.fresh grammar).rename σ := rfl
  unfold repairs
  rw [Rule.ceiling?_rename, hfresh, Rule.enumerate_rename]

end GrammarRepair
