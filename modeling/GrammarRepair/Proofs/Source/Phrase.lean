import GrammarRepair.Proofs.Source.Spelling
import GrammarRepair.Source.Expr

/-!
# Phrases

A phrase is a list of tokens that says something: an atom, an item, a branch,
an expression, a definition, a source.  Each kind of phrase is a relation
between tokens and what they say, with one constructor for each form.

Grouping leaves no trace: parentheses, a branch of one item and an expression
of one branch all say what is inside of them.
-/

namespace GrammarRepair.Source

/-- What follows an atom first: the name of a suggestion, or nothing. -/
inductive SuggestionPhrase (atom : Expr) : List Token → Expr → Prop
  | absent : SuggestionPhrase atom [] atom
  | present (name : String) : SuggestionPhrase atom [.suggestion name] (.suggesting atom name)

/-- What follows then: a quantifier, or nothing. -/
inductive QuantifierPhrase (inner : Expr) : List Token → Expr → Prop
  | absent : QuantifierPhrase inner [] inner
  | optional : QuantifierPhrase inner [.sign '?'] (.repeated inner 0 (some 1))
  | star : QuantifierPhrase inner [.sign '*'] (.repeated inner 0 none)
  | plus : QuantifierPhrase inner [.sign '+'] (.repeated inner 1 none)
  | exact (n : Nat) :
      QuantifierPhrase inner [.sign '{', .count n, .sign '}'] (.repeated inner n (some n))
  | atLeast (n : Nat) :
      QuantifierPhrase inner [.sign '{', .count n, .sign ',', .sign '}']
        (.repeated inner n none)
  | between (n m : Nat) :
      QuantifierPhrase inner [.sign '{', .count n, .sign ',', .count m, .sign '}']
        (.repeated inner n (some m))

/-- What the items of a branch say together: a single one stands for itself. -/
inductive SequenceOf : List Expr → Expr → Prop
  | single (item : Expr) : SequenceOf [item] item
  | several {items : List Expr} (hlength : items.length = 0 ∨ 2 ≤ items.length) :
      SequenceOf items (.sequence items)

/-- What the branches say together: a single one stands for itself. -/
inductive ChoiceOf : List Expr → Expr → Prop
  | single (branch : Expr) : ChoiceOf [branch] branch
  | several {branches : List Expr} (hlength : 2 ≤ branches.length) :
      ChoiceOf branches (.choice branches)

mutual

/-- A text, a character, a range, a name or a group. -/
inductive AtomPhrase : List Token → Expr → Prop
  | literal (value : Text) : AtomPhrase [.text value] (.literal value)
  | character (c : Char) : AtomPhrase [.character c] (.range c c)
  | range (low high : Char) :
      AtomPhrase [.character low, .dots, .character high] (.range low high)
  | reference (name : String) : AtomPhrase [.name name] (.reference name)
  | group {tokens : List Token} {expr : Expr} (hinner : ExprPhrase tokens expr) :
      AtomPhrase (.sign '(' :: (tokens ++ [.sign ')'])) expr

/-- An atom, a suggestion or none, a quantifier or none. -/
inductive ItemPhrase : List Token → Expr → Prop
  | mk {tokens tokens' tokens'' : List Token} {atom inner item : Expr}
      (hatom : AtomPhrase tokens atom) (hsuggestion : SuggestionPhrase atom tokens' inner)
      (hquantifier : QuantifierPhrase inner tokens'' item) :
      ItemPhrase (tokens ++ (tokens' ++ tokens'')) item

/-- The items of a branch, as many as one likes. -/
inductive BranchPhrase : List Token → List Expr → Prop
  | nil : BranchPhrase [] []
  | cons {tokens tokens' : List Token} {item : Expr} {items : List Expr}
      (hitem : ItemPhrase tokens item) (hitems : BranchPhrase tokens' items) :
      BranchPhrase (tokens ++ tokens') (item :: items)

/-- Further branches, each behind a bar. -/
inductive BarPhrase : List Token → List Expr → Prop
  | nil : BarPhrase [] []
  | cons {tokens tokens' : List Token} {items branches : List Expr} {branch : Expr}
      (hitems : BranchPhrase tokens items) (hbranch : SequenceOf items branch)
      (hbranches : BarPhrase tokens' branches) :
      BarPhrase (.sign '|' :: (tokens ++ tokens')) (branch :: branches)

/-- One branch or more. -/
inductive ExprPhrase : List Token → Expr → Prop
  | mk {tokens tokens' : List Token} {items branches : List Expr} {branch expr : Expr}
      (hitems : BranchPhrase tokens items) (hbranch : SequenceOf items branch)
      (hbranches : BarPhrase tokens' branches) (hexpr : ChoiceOf (branch :: branches) expr) :
      ExprPhrase (tokens ++ tokens') expr

end

theorem AtomPhrase.item {tokens : List Token} {atom : Expr} (h : AtomPhrase tokens atom) :
    ItemPhrase tokens atom := by
  have hitem := ItemPhrase.mk h .absent .absent
  rwa [List.append_nil, List.append_nil] at hitem

theorem AtomPhrase.branch {tokens : List Token} {atom : Expr} (h : AtomPhrase tokens atom) :
    BranchPhrase tokens [atom] := by
  have hbranch := BranchPhrase.cons h.item .nil
  rwa [List.append_nil] at hbranch

/-- A ceiling, or nothing. -/
inductive CeilingPhrase : List Token → Option Nat → Prop
  | absent : CeilingPhrase [] none
  | present (limit : Nat) :
      CeilingPhrase [.sign '(', .max, .count limit, .sign ')'] (some limit)

/-- A name, a ceiling or none, an equals sign, an expression and a semicolon. -/
inductive DefinitionPhrase : List Token → Definition → Prop
  | mk {name : String} {tokens tokens' : List Token} {ceiling : Option Nat} {body : Expr}
      (hceiling : CeilingPhrase tokens ceiling) (hbody : ExprPhrase tokens' body) :
      DefinitionPhrase (.name name :: (tokens ++ .sign '=' :: (tokens' ++ [.sign ';'])))
        ⟨name, ceiling, body⟩

/-- Definitions one after the other. -/
inductive SourcePhrase : List Token → List Definition → Prop
  | nil : SourcePhrase [] []
  | cons {tokens tokens' : List Token} {definition : Definition} {definitions : List Definition}
      (hdefinition : DefinitionPhrase tokens definition)
      (hdefinitions : SourcePhrase tokens' definitions) :
      SourcePhrase (tokens ++ tokens') (definition :: definitions)

/-- The first text begins with a phrase of this kind for the value, and the
second is what is left behind it. -/
def Says {α : Type} (phrase : List Token → α → Prop) (value : α) (text rest : Text) : Prop :=
  ∃ tokens, phrase tokens value ∧ Spells tokens text rest

/-- The source spells the definitions, and nothing but a gap follows. -/
def IsSpelling (source : Text) (definitions : List Definition) : Prop :=
  ∃ rest, Says SourcePhrase definitions source rest ∧ Gap rest []

/-! ## No node for a group -/

/-- A sequence inside the expression never has exactly one item, and a choice
has two branches or more. -/
inductive Expr.Compact : Expr → Prop
  | literal (text : Text) : Compact (.literal text)
  | range (low high : Char) : Compact (.range low high)
  | reference (name : String) : Compact (.reference name)
  | sequence {items : List Expr} (hlength : items.length = 0 ∨ 2 ≤ items.length)
      (hitems : ∀ item ∈ items, Compact item) : Compact (.sequence items)
  | choice {branches : List Expr} (hlength : 2 ≤ branches.length)
      (hbranches : ∀ branch ∈ branches, Compact branch) : Compact (.choice branches)
  | repeated {inner : Expr} (low : Nat) (high : Option Nat) (hinner : Compact inner) :
      Compact (.repeated inner low high)
  | suggesting {inner : Expr} (suggestion : String) (hinner : Compact inner) :
      Compact (.suggesting inner suggestion)

theorem SequenceOf.compact {items : List Expr} {expr : Expr} (h : SequenceOf items expr)
    (hitems : ∀ item ∈ items, item.Compact) : expr.Compact := by
  cases h with
  | single item => exact hitems _ List.mem_cons_self
  | several hlength => exact .sequence hlength hitems

theorem ChoiceOf.compact {branches : List Expr} {expr : Expr} (h : ChoiceOf branches expr)
    (hbranches : ∀ branch ∈ branches, branch.Compact) : expr.Compact := by
  cases h with
  | single branch => exact hbranches _ List.mem_cons_self
  | several hlength => exact .choice hlength hbranches

theorem SuggestionPhrase.compact {atom expr : Expr} {tokens : List Token}
    (h : SuggestionPhrase atom tokens expr) (hatom : atom.Compact) : expr.Compact := by
  cases h with
  | absent => exact hatom
  | present name => exact .suggesting name hatom

theorem QuantifierPhrase.compact {inner expr : Expr} {tokens : List Token}
    (h : QuantifierPhrase inner tokens expr) (hinner : inner.Compact) : expr.Compact := by
  cases h with
  | absent => exact hinner
  | _ => exact .repeated _ _ hinner

mutual

theorem AtomPhrase.compact {tokens : List Token} {expr : Expr} :
    AtomPhrase tokens expr → expr.Compact
  | .literal value => .literal value
  | .character c => .range c c
  | .range low high => .range low high
  | .reference name => .reference name
  | .group hinner => hinner.compact

theorem ItemPhrase.compact {tokens : List Token} {expr : Expr} :
    ItemPhrase tokens expr → expr.Compact
  | .mk hatom hsuggestion hquantifier =>
      hquantifier.compact (hsuggestion.compact hatom.compact)

theorem BranchPhrase.compact {tokens : List Token} {items : List Expr} :
    BranchPhrase tokens items → ∀ item ∈ items, item.Compact
  | .nil => List.forall_mem_nil _
  | .cons hitem hitems => List.forall_mem_cons.mpr ⟨hitem.compact, hitems.compact⟩

theorem BarPhrase.compact {tokens : List Token} {branches : List Expr} :
    BarPhrase tokens branches → ∀ branch ∈ branches, branch.Compact
  | .nil => List.forall_mem_nil _
  | .cons hitems hbranch hbranches =>
      List.forall_mem_cons.mpr ⟨hbranch.compact hitems.compact, hbranches.compact⟩

theorem ExprPhrase.compact {tokens : List Token} {expr : Expr} :
    ExprPhrase tokens expr → expr.Compact
  | .mk hitems hbranch hbranches hexpr =>
      hexpr.compact
        (List.forall_mem_cons.mpr ⟨hbranch.compact hitems.compact, hbranches.compact⟩)

end

theorem SourcePhrase.compact
    {tokens : List Token} {definitions : List Definition} (h : SourcePhrase tokens definitions) :
    ∀ definition ∈ definitions, definition.body.Compact := by
  induction h with
  | nil => exact List.forall_mem_nil _
  | cons hdefinition _ ih =>
      cases hdefinition with
      | mk _ hbody => exact List.forall_mem_cons.mpr ⟨hbody.compact, ih⟩

end GrammarRepair.Source
