import GrammarRepair.Matching
import GrammarRepair.Text.Order

/-!
# Repairs

The repairs of an input by a rule are the texts of its complete matches: the
longest first, texts of one size in the order of their characters, each once.
A ceiling that the rule declares cuts the input beforehand and drops the texts
that are too long afterwards.
-/

namespace GrammarRepair

/-- The part of an input that a ceiling leaves. -/
def Text.within (ceiling : Option Nat) (text : Text) : Text :=
  match ceiling with
  | some limit => Text.truncate limit text
  | none => text

/-- Whether a text respects a ceiling. -/
def Text.fits (ceiling : Option Nat) (text : Text) : Bool :=
  match ceiling with
  | some limit => decide (Text.byteLength text ≤ limit)
  | none => true

namespace Grammar

/-- Every text that repairs the input so that the rule accepts it. -/
def repairs (grammar : Grammar) (rule : Rule) (input : Text) : List Text :=
  let complete := (rule.enumerate (Context.fresh grammar) (Text.within rule.ceiling? input)).filter
    Match.isComplete
  ordered Text.comesBefore ((complete.map Match.text).filter (Text.fits rule.ceiling?))

/-- The repairs of an input by the rule of this name. -/
def repairsBy (grammar : Grammar) (name : String) (input : Text) :
    Except GrammarError (List Text) :=
  match grammar.find? name with
  | some rule => .ok (grammar.repairs rule input)
  | none => .error (.undefinedRule name)

/-- A repair is the text of a complete match that respects the ceiling. -/
theorem mem_repairs_iff (grammar : Grammar) (rule : Rule) (input text : Text) :
    text ∈ grammar.repairs rule input ↔
      ⟨text, []⟩ ∈ rule.enumerate (Context.fresh grammar) (Text.within rule.ceiling? input) ∧
        Text.fits rule.ceiling? text = true := by
  simp only [repairs, mem_ordered, List.mem_filter, List.mem_map]
  constructor
  · rintro ⟨⟨m, ⟨hm, hcomplete⟩, rfl⟩, hfits⟩
    rw [Match.isComplete_iff] at hcomplete
    exact ⟨hcomplete ▸ hm, hfits⟩
  · rintro ⟨hm, hfits⟩
    exact ⟨⟨_, ⟨hm, rfl⟩, rfl⟩, hfits⟩

/-- Repairs stand in their order, none of them twice. -/
theorem pairwise_repairs (grammar : Grammar) (rule : Rule) (input : Text) :
    (grammar.repairs rule input).Pairwise fun a b => Text.comesBefore a b = true ∧ a ≠ b :=
  pairwise_ordered Text.comesBefore_total Text.comesBefore_trans Text.comesBefore_antisymm _

end Grammar

/-- The repairs of an input by a rule that needs no grammar. -/
def Rule.repairs (rule : Rule) (input : Text) : List Text :=
  Grammar.empty.repairs rule input

end GrammarRepair
