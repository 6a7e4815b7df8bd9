import GrammarRepair.Proofs.Source.Joining
import GrammarRepair.Rule.Format

/-!
# Rules in writing are read

A rule in writing spells an expression, as long as all of it has a notation: no
suggestion, no bound name, no ceiling, no choice without branches, and no
reference to what is not a name.  Whatever the rule, its writing is one atom, so
atoms can be put side by side with a blank or a bar in between.  Only a reference
could be read on behind its end; therefore what is behind an atom must not go on
like a name.

The expression is not the rule again.  Parentheses around one rule are lost, and
the empty sequence comes back as the empty text.
-/

namespace GrammarRepair

open Source

namespace Rule

mutual

/-- What a rule in writing says, as far as it has a notation. -/
def written : Rule → Expr
  | .literal text => .literal text
  | .range span _ => .range span.low span.high
  | .sequence [] => .literal []
  | .sequence (part :: parts) => .ofItems (part.written :: writtenAll parts)
  | .choice branches _ => .ofBranches (writtenAll branches)
  | .reference name => .reference name
  | .bound _ body => body.written
  | .capped _ inner => inner.written

/-- What several rules in writing say. -/
def writtenAll : List Rule → List Expr
  | [] => []
  | rule :: rules => rule.written :: writtenAll rules

end

/-- All of the rule has a notation. -/
inductive Notated : Rule → Prop
  | literal (text : Text) : Notated (.literal text)
  | range (span : CharRange) : Notated (.range span none)
  | sequence {parts : List Rule} (hparts : ∀ part ∈ parts, Notated part) :
      Notated (.sequence parts)
  | choice {branch : Rule} {branches : List Rule}
      (hbranches : ∀ other ∈ branch :: branches, Notated other) :
      Notated (.choice (branch :: branches) none)
  | reference {name : String} (hname : IsName name.toList) : Notated (.reference name)

end Rule

namespace Source

/-! ## Quotes -/

/-- A character is escaped, or it is neither the quote nor a backslash. -/
theorem escapedChar_eq {quote : Char} (hquote : Escape quote quote) (c : Char) :
    (∃ e, Escape e c ∧ Text.escapedChar quote c = ['\\', e]) ∨
      c ≠ quote ∧ c ≠ '\\' ∧ Text.escapedChar quote c = [c] := by
  unfold Text.escapedChar
  split
  · rename_i hc
    exact .inl ⟨'\\', by rw [hc]; exact .backslash, rfl⟩
  split
  · rename_i hc
    exact .inl ⟨'n', by rw [hc]; exact .lineFeed, rfl⟩
  split
  · rename_i hc
    exact .inl ⟨'t', by rw [hc]; exact .tab, rfl⟩
  split
  · rename_i hc
    exact .inl ⟨quote, by rw [hc]; exact hquote, rfl⟩
  · exact .inr ⟨‹_›, ‹_›, rfl⟩

/-- An escaped text means the text. -/
theorem quotes_escaped (text : Text) : Quotes (Text.escaped '"' text) text := by
  induction text with
  | nil => exact .nil
  | cons c text ih =>
      rw [Text.escaped_cons]
      rcases escapedChar_eq .doubleQuote c with ⟨e, hescape, heq⟩ | ⟨hquote, hbackslash, heq⟩
      · rw [heq]
        exact .escape hescape ih
      · rw [heq]
        exact .plain hquote hbackslash ih

theorem writes_text (value rest : Text) : Writes (.text value) (Text.enclosed '"' value) rest :=
  .text (quotes_escaped value)

theorem writes_character (c : Char) (rest : Text) :
    Writes (.character c) (Text.enclosed '\'' [c]) rest := by
  rw [Text.enclosed, Text.escaped_cons, Text.escaped_nil, List.append_nil]
  rcases escapedChar_eq .singleQuote c with ⟨e, hescape, heq⟩ | ⟨-, hbackslash, heq⟩
  · rw [heq]
    exact .escape hescape
  · rw [heq]
    exact .plain hbackslash

/-! ## Atoms side by side -/

theorem Gap.space (text : Text) : Gap (' ' :: text) text :=
  .blank (by decide) (.none text)

theorem Gap.spells_sign
    {c : Char} {text rest : Text} (h : Gap text (c :: rest)) (hc : c ∈ punctuation) :
    Spells [.sign c] text rest := by
  have hwrites : Writes (.sign c) [c] rest := .sign hc
  exact .cons h hwrites (.nil rest)

/-- No name goes on in this text. -/
def EndsName (rest : Text) : Prop :=
  ∀ d ∈ rest.head?, isNamePart d = false

theorem endsName_cons {c : Char} (hc : isNamePart c = false) (rest : Text) :
    EndsName (c :: rest) := by
  intro d hd
  obtain rfl := Option.some.inj hd
  exact hc

/-- Behind a gap, the rule in writing is read as an atom. -/
def Legible (rule : Rule) : Prop :=
  ∀ text rest, Gap text (rule.format ++ rest) → EndsName rest →
    Says AtomPhrase rule.written text rest

theorem formatRest_blank_append (rule : Rule) (rules : List Rule) (rest : Text) :
    Rule.formatRest " ".toList (rule :: rules) ++ rest =
      ' ' :: (rule.format ++ (Rule.formatRest " ".toList rules ++ rest)) := by
  rw [Rule.formatRest, List.append_assoc, List.append_assoc]
  rfl

theorem formatRest_bar_append (rule : Rule) (rules : List Rule) (rest : Text) :
    Rule.formatRest " | ".toList (rule :: rules) ++ rest =
      ' ' :: '|' :: ' ' :: (rule.format ++ (Rule.formatRest " | ".toList rules ++ rest)) := by
  rw [Rule.formatRest, List.append_assoc, List.append_assoc]
  rfl

/-- Rules with blanks in between are the items of a branch. -/
theorem says_parts
    {part : Rule} {parts : List Rule} (hparts : ∀ rule ∈ part :: parts, Legible rule)
    {text rest : Text} (hgap : Gap text (part.format ++ (Rule.formatRest " ".toList parts ++ rest)))
    (hrest : EndsName rest) :
    Says BranchPhrase (Rule.writtenAll (part :: parts)) text rest := by
  induction parts generalizing part text with
  | nil =>
      obtain ⟨tokens, hatom, hspells⟩ := hparts part List.mem_cons_self text rest hgap hrest
      exact ⟨tokens, hatom.branch, hspells⟩
  | cons next parts ih =>
      obtain ⟨hpart, hlater⟩ := List.forall_mem_cons.mp hparts
      rw [formatRest_blank_append] at hgap
      -- The blank ends the part and is the gap in front of the next one.
      obtain ⟨tokens, hatom, hspells⟩ := hpart _ _ hgap (endsName_cons (by decide) _)
      obtain ⟨tokens', hitems, hspells'⟩ := ih hlater (.space _)
      exact ⟨_, .cons hatom.item hitems, hspells.append hspells'⟩

/-- Rules with bars in front of them are further branches. -/
theorem says_branches
    {branches : List Rule} (hbranches : ∀ rule ∈ branches, Legible rule) {rest : Text}
    (hrest : EndsName rest) :
    EndsName (Rule.formatRest " | ".toList branches ++ rest) ∧
      Says BarPhrase (Rule.writtenAll branches) (Rule.formatRest " | ".toList branches ++ rest)
        rest := by
  induction branches with
  | nil => exact ⟨hrest, [], .nil, .nil rest⟩
  | cons branch branches ih =>
      obtain ⟨hbranch, hlater⟩ := List.forall_mem_cons.mp hbranches
      obtain ⟨hends, tokens', hbars, hspells'⟩ := ih hlater
      rw [formatRest_bar_append]
      obtain ⟨tokens, hatom, hspells⟩ := hbranch _ _ (.space _) hends
      refine ⟨endsName_cons (by decide) _, _, .cons hatom.branch (.single _) hbars, ?_⟩
      exact ((Gap.space _).spells_sign (by decide)).append (hspells.append hspells')

/-- An expression between parentheses is an atom. -/
theorem Says.group
    {expr : Expr} {text inner rest : Text} (hopen : Gap text ('(' :: inner))
    (h : Says ExprPhrase expr inner (')' :: rest)) :
    Says AtomPhrase expr text rest := by
  obtain ⟨tokens, hexpr, hspells⟩ := h
  have hclose : Spells [.sign ')'] (')' :: rest) rest := (Gap.none _).spells_sign (by decide)
  exact ⟨_, .group hexpr, (hopen.spells_sign (by decide)).append (hspells.append hclose)⟩

/-! ## Rules are legible -/

theorem legible_literal (text : Text) : Legible (.literal text) := by
  intro input rest hgap _
  exact ⟨_, .literal text, .cons hgap (writes_text text rest) (.nil rest)⟩

theorem legible_range (span : CharRange) : Legible (.range span none) := by
  intro text rest hgap _
  rw [Rule.format, Rule.suggestionMark, List.append_nil, Rule.formatRange] at hgap
  rw [Rule.written]
  split at hgap
  · rename_i hsingle
    rw [← hsingle]
    exact ⟨_, .character span.low, .cons hgap (writes_character span.low rest) (.nil rest)⟩
  · rw [List.append_assoc, List.append_assoc] at hgap
    have hhigh : Spells [.character span.high] (Text.enclosed '\'' [span.high] ++ rest) rest :=
      .cons (.none _) (writes_character span.high rest) (.nil rest)
    exact ⟨_, .range span.low span.high, .cons hgap (writes_character span.low _)
      (.cons (.none _) .dots hhigh)⟩

theorem legible_reference {name : String} (hname : IsName name.toList) :
    Legible (.reference name) := by
  intro text rest hgap hrest
  have hwrites : Writes (.name name) name.toList rest :=
    .name (longest_isName_iff.mpr ⟨hname, hrest⟩)
  exact ⟨_, .reference name, .cons hgap hwrites (.nil rest)⟩

theorem legible_sequence {parts : List Rule} (hparts : ∀ part ∈ parts, Legible part) :
    Legible (.sequence parts) := by
  cases parts with
  | nil => exact legible_literal []
  | cons part parts =>
      intro text rest hgap _
      rw [Rule.format, List.cons_append, List.append_assoc, List.append_assoc] at hgap
      obtain ⟨tokens, hitems, hspells⟩ := says_parts hparts (.none _)
        (endsName_cons (by decide : isNamePart ')' = false) rest)
      have hexpr := ExprPhrase.mk hitems (sequenceOf_ofItems _) .nil (.single _)
      rw [List.append_nil] at hexpr
      exact Says.group hgap ⟨tokens, hexpr, hspells⟩

theorem legible_choice
    {branch : Rule} {branches : List Rule}
    (hbranches : ∀ other ∈ branch :: branches, Legible other) :
    Legible (.choice (branch :: branches) none) := by
  intro text rest hgap _
  obtain ⟨hbranch, hlater⟩ := List.forall_mem_cons.mp hbranches
  rw [Rule.format, Rule.suggestionMark, List.cons_append, List.append_assoc, List.append_assoc]
    at hgap
  obtain ⟨hends, tokens', hbars, hspells'⟩ := says_branches hlater
    (endsName_cons (by decide : isNamePart ')' = false) rest)
  obtain ⟨tokens, hatom, hspells⟩ := hbranch _ _ (.none _) hends
  exact Says.group hgap ⟨_, .mk hatom.branch (.single _) hbars (choiceOf_ofBranches _ _),
    hspells.append hspells'⟩

end Source

/-- What has a notation can be read. -/
theorem Rule.Notated.legible {rule : Rule} (h : rule.Notated) : Legible rule := by
  induction h with
  | literal text => exact legible_literal text
  | range span => exact legible_range span
  | sequence _ ih => exact legible_sequence ih
  | choice _ ih => exact legible_choice ih
  | reference hname => exact legible_reference hname

namespace Source

/-! ## A definition -/

/-- The source that defines a name as a rule. -/
def definitionSource (name : String) (rule : Rule) : Text :=
  name.toList ++ " = ".toList ++ rule.format ++ [';']

/-- What has a notation can be defined. -/
theorem read_definitionSource
    {name : String} (hname : IsName name.toList) {rule : Rule} (hrule : rule.Notated) :
    read (definitionSource name rule) = .ok [⟨name, none, rule.written⟩] := by
  have hwrites : Writes (.name name) name.toList (" = ".toList ++ (rule.format ++ [';'])) :=
    .name (longest_isName_iff.mpr ⟨hname, endsName_cons (by decide) _⟩)
  have hequals : Spells [.sign '='] (" = ".toList ++ (rule.format ++ [';']))
      (' ' :: (rule.format ++ [';'])) :=
    (Gap.space _).spells_sign (by decide)
  obtain ⟨tokens, hatom, hbody⟩ :=
    hrule.legible _ _ (.space _) (endsName_cons (by decide : isNamePart ';' = false) [])
  have hend : Spells [.sign ';'] [';'] [] := (Gap.none _).spells_sign (by decide)
  have hexpr := ExprPhrase.mk hatom.branch (.single _) .nil (.single _)
  rw [List.append_nil] at hexpr
  have hdefinition := @DefinitionPhrase.mk name _ _ _ _ .absent hexpr
  refine read_eq_ok_iff.mpr ⟨[], ⟨_, .cons hdefinition .nil, ?_⟩, .none []⟩
  have hspells := Spells.cons (.none _) hwrites (hequals.append (hbody.append hend))
  simpa [definitionSource] using hspells

end Source
end GrammarRepair
