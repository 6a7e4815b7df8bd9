import GrammarRepair.Error
import GrammarRepair.Suggestion

/-!
# Rules

A rule describes texts.  Only ranges and choices carry a suggestion, which is
asked when nothing matches directly.  A `bound` rule carries the meaning of
its own name, so a rule that refers to itself works in every grammar.

The functions below build the usual combinations: `concat` does not wrap a
single rule, and repetition with a finite bound is a choice among sequences.
-/

namespace GrammarRepair

/-- An interval of characters that is not empty. -/
structure CharRange where
  low : Char
  high : Char
  low_le_high : low ≤ high := by decide

namespace CharRange

instance : Inhabited CharRange := ⟨default, default, Char.le_refl _⟩

/-- The interval between two characters; an upper end below the lower one is
raised to it. -/
def ofBounds (low high : Char) : CharRange :=
  if h : low ≤ high then ⟨low, high, h⟩ else ⟨low, low, Char.le_refl low⟩

/-- Whether a character lies in the interval, ends included. -/
def contains (span : CharRange) (c : Char) : Bool :=
  decide (span.low ≤ c) && decide (c ≤ span.high)

@[simp] theorem low_ofBounds (low high : Char) : (ofBounds low high).low = low := by
  unfold ofBounds; split <;> rfl

theorem high_ofBounds (low high : Char) :
    (ofBounds low high).high = if low ≤ high then high else low := by
  unfold ofBounds; split <;> rfl

theorem contains_iff (span : CharRange) (c : Char) :
    span.contains c = true ↔ span.low ≤ c ∧ c ≤ span.high := by
  simp [contains]

end CharRange

/-- A description of texts. -/
inductive Rule where
  /-- Exactly this text. -/
  | literal (text : Text)
  /-- One character of an interval. -/
  | range (span : CharRange) (suggestion : Option Suggestion)
  /-- The parts one after the other. -/
  | sequence (parts : List Rule)
  /-- Any one of the branches. -/
  | choice (branches : List Rule) (suggestion : Option Suggestion)
  /-- The rule of this name. -/
  | reference (name : String)
  /-- The body, in which the name stands for the body itself. -/
  | bound (name : String) (body : Rule)
  /-- The inner rule, with a ceiling in bytes for repairs of the whole. -/
  | capped (limit : Nat) (inner : Rule)
deriving Inhabited

namespace Rule

/-- The rules one after the other; a single rule stands for itself. -/
def concat : List Rule → Rule
  | [rule] => rule
  | rules => .sequence rules

/-- Any one of the rules. -/
def alternative (rules : List Rule) : Rule :=
  .choice rules none

/-- The empty text. -/
def epsilon : Rule :=
  .sequence []

/-- One rule, then the other. -/
def andThen (first second : Rule) : Rule :=
  concat [first, second]

/-- One rule or the other. -/
def orElse (first second : Rule) : Rule :=
  alternative [first, second]

/-- A given number of copies. -/
def copies (count : Nat) (rule : Rule) : Rule :=
  concat (List.replicate count rule)

/-- Between `low` and `high` copies, the fewest first; an upper bound below the
lower one is raised to it. -/
def repeatBetween (low high : Nat) (rule : Rule) : Rule :=
  if high ≤ low then copies low rule
  else alternative ((List.range' low (high - low + 1)).map (copies · rule))

/-- The rule, or nothing. -/
def optional (rule : Rule) : Rule :=
  repeatBetween 0 1 rule

theorem optional_eq (rule : Rule) : optional rule = alternative [epsilon, rule] := rfl

section

variable {p : Rule → Prop} (hsequence : ∀ {parts}, (∀ part ∈ parts, p part) → p (sequence parts))
include hsequence

/-- What holds of sequences whenever it holds of their parts, holds of rules one
after the other. -/
theorem holds_concat {rules : List Rule} (hrules : ∀ rule ∈ rules, p rule) : p (concat rules) := by
  match rules with
  | [] => exact hsequence hrules
  | [rule] => exact hrules rule List.mem_cons_self
  | _ :: _ :: _ => exact hsequence hrules

theorem holds_copies {rule : Rule} (hrule : p rule) (count : Nat) : p (copies count rule) := by
  apply holds_concat hsequence
  intro copy hcopy
  obtain rfl := List.eq_of_mem_replicate hcopy
  exact hrule

/-- If it holds of choices as well, it holds of repetitions. -/
theorem holds_repeatBetween
    (hchoice : ∀ {branch branches}, (∀ other ∈ branch :: branches, p other) →
      p (choice (branch :: branches) none))
    {rule : Rule} (hrule : p rule) (low high : Nat) :
    p (repeatBetween low high rule) := by
  unfold repeatBetween
  split
  · exact holds_copies hsequence hrule low
  · have hall : ∀ branch ∈ (List.range' low (high - low + 1)).map (copies · rule), p branch := by
      intro branch hbranch
      obtain ⟨count, -, rfl⟩ := List.mem_map.mp hbranch
      exact holds_copies hsequence hrule count
    rw [List.range'_succ, List.map_cons] at hall ⊢
    exact hchoice hall

end

/-- The ceiling that the rule itself declares.  Ceilings further inside do not
count. -/
def ceiling? : Rule → Option Nat
  | .capped limit _ => some limit
  | _ => none

/-- The rule under a ceiling, if there is one. -/
def withCeiling (rule : Rule) : Option Nat → Rule
  | none => rule
  | some limit => .capped limit rule

/-- The shape of a rule. -/
def kind : Rule → RuleKind
  | .literal _ => .literal
  | .range .. => .range
  | .sequence _ => .sequence
  | .choice .. => .choice
  | .reference _ => .reference
  | .bound .. => .reference
  | .capped .. => .capped

/-- Attach a suggestion to a range or a choice, in place of an earlier one.  A
capped rule passes the suggestion on and keeps its ceiling. -/
def withSuggestion (suggestion : Suggestion) : Rule → Except GrammarError Rule
  | .range span _ => .ok (.range span (some suggestion))
  | .choice branches _ => .ok (.choice branches (some suggestion))
  | .capped limit inner => (withSuggestion suggestion inner).map (.capped limit)
  | .literal _ => .error (.suggestionUnsupported .literal)
  | .sequence _ => .error (.suggestionUnsupported .sequence)
  | .reference _ => .error (.suggestionUnsupported .reference)
  | .bound .. => .error (.suggestionUnsupported .reference)

mutual

/-- The names a rule refers to, except where the rule itself binds them; in
order, repeats kept. -/
def references : Rule → List String
  | .literal _ => []
  | .range .. => []
  | .sequence parts => referencesOfAll parts
  | .choice branches _ => referencesOfAll branches
  | .reference name => [name]
  | .bound name body => body.references.filter (· != name)
  | .capped _ inner => inner.references

/-- The references of several rules. -/
def referencesOfAll : List Rule → List String
  | [] => []
  | rule :: rules => rule.references ++ referencesOfAll rules

end

mutual

/-- Every name that occurs as a reference in a rule, bound or not. -/
def mentions : Rule → List String
  | .literal _ => []
  | .range .. => []
  | .sequence parts => mentionsOfAll parts
  | .choice branches _ => mentionsOfAll branches
  | .reference name => [name]
  | .bound _ body => body.mentions
  | .capped _ inner => inner.mentions

/-- The names that occur as references in several rules. -/
def mentionsOfAll : List Rule → List String
  | [] => []
  | rule :: rules => rule.mentions ++ mentionsOfAll rules

end

mutual

/-- The number of nodes of a rule. -/
def size : Rule → Nat
  | .literal _ => 1
  | .range .. => 1
  | .sequence parts => sizeOfAll parts + 1
  | .choice branches _ => sizeOfAll branches + 1
  | .reference _ => 1
  | .bound _ body => body.size + 1
  | .capped _ inner => inner.size + 1

/-- The number of nodes of several rules, and of the list that holds them. -/
def sizeOfAll : List Rule → Nat
  | [] => 0
  | rule :: rules => rule.size + sizeOfAll rules + 1

end

theorem referencesOfAll_eq_flatMap (rules : List Rule) :
    referencesOfAll rules = rules.flatMap references := by
  induction rules with
  | nil => rfl
  | cons rule rules ih => simp [referencesOfAll, ih]

theorem mem_referencesOfAll_iff {name : String} {rules : List Rule} :
    name ∈ referencesOfAll rules ↔ ∃ rule ∈ rules, name ∈ rule.references := by
  rw [referencesOfAll_eq_flatMap, List.mem_flatMap]

/-- A body refers to the name that is bound to it and to what the binding refers
to. -/
theorem forall_mem_references_of_bound
    {name : String} {body : Rule} {motive : String → Prop} (hname : motive name)
    (hbound : ∀ other ∈ (bound name body).references, motive other) :
    ∀ other ∈ body.references, motive other := by
  intro other hother
  by_cases heq : other = name
  · rwa [heq]
  · exact hbound other (List.mem_filter.mpr ⟨hother, by simpa using heq⟩)

theorem mentionsOfAll_eq_flatMap (rules : List Rule) :
    mentionsOfAll rules = rules.flatMap mentions := by
  induction rules with
  | nil => rfl
  | cons rule rules ih => simp [mentionsOfAll, ih]

end Rule
end GrammarRepair
