import GrammarRepair.Source.Expression

/-!
# Reading sources

A definition is a name, optionally a ceiling in parentheses, an equals sign, an
expression and a semicolon.  A source is a list of definitions with nothing but
blanks behind the last one.
-/

namespace GrammarRepair.Source

/-- The ceiling of a definition, if one is declared. -/
def readCeiling (text : Text) : Reading (Option Nat) :=
  match skipBlank text with
  | '(' :: rest =>
      match skipBlank rest with
      | 'm' :: 'a' :: 'x' :: rest =>
          ((readCount (skipBlank rest)).require []).bind fun (limit, rest) =>
            ((readSign ')' (skipBlank rest)).require []).mapValue fun _ => some limit
      | _ => .ok (none, text)
  | _ => .ok (none, text)

/-- What follows the name of a definition. -/
def readDefinitionEnd (name : String) (text : Text) : Reading Definition :=
  (readCeiling text).bind fun (ceiling, rest) =>
    ((readSign '=' (skipBlank rest)).require [.sign '=']).bind fun (_, rest) =>
      ((readExpression rest).expecting .body).bind fun (body, rest) =>
        ((readSign ';' (skipBlank rest)).require [.sign ';']).mapValue fun _ =>
          ⟨name, ceiling, body⟩

/-- A definition. -/
def readDefinition (text : Text) : Outcome Definition :=
  match readName (skipBlank text) with
  | .found name rest => (readDefinitionEnd name rest).toOutcome
  | .missing rest => .missing rest
  | .stuck failure => .stuck failure

theorem readCeiling_keeps (text : Text) : Reading.Keeps text (readCeiling text) := by
  unfold readCeiling
  split
  · rename_i rest hrest
    split
    · rename_i later hlater
      have hrest := (behind_sign hrest).1
      have hlater := (behind_sign hlater).1
      have hcount : later <:+ text :=
        ((List.suffix_cons 'x' later).trans (List.suffix_cons 'a' _)).trans (hlater.trans hrest)
      exact Reading.keeps_bind
        (Reading.keeps_require
          ((readCount_progresses _).of_suffix ((skipBlank_suffix _).trans hcount)))
        fun _ _ h => (Reading.keeps_require
          ((readSign_progresses _ _).of_suffix ((skipBlank_suffix _).trans h))).mapValue _
    · exact List.suffix_rfl
  · exact List.suffix_rfl

theorem readDefinitionEnd_keeps (name : String) (text : Text) :
    Reading.Keeps text (readDefinitionEnd name text) :=
  Reading.keeps_bind (readCeiling_keeps text) fun _ _ h =>
    Reading.keeps_bind (Reading.keeps_require
      ((readSign_progresses _ _).of_suffix ((skipBlank_suffix _).trans h))) fun _ _ h =>
      Reading.keeps_bind (((readExpression_keeps _).of_suffix h).expecting _) fun _ _ h =>
        (Reading.keeps_require
          ((readSign_progresses _ _).of_suffix ((skipBlank_suffix _).trans h))).mapValue _

theorem readDefinition_progresses (text : Text) : (readDefinition text).Progresses text := by
  have hname := (readName_progresses (skipBlank text)).of_suffix (skipBlank_suffix text)
  unfold readDefinition
  split <;> rename_i h <;> rw [h] at hname
  · exact (readDefinitionEnd_keeps _ _).toOutcome hname.1 hname.2
  · exact hname
  · exact hname

/-- As many definitions as there are. -/
def readDefinitions (text : Text) : Reading (List Definition) :=
  match _h : readDefinition text with
  | .found definition rest => (readDefinitions rest).mapValue (definition :: ·)
  | .missing _ => .ok ([], text)
  | .stuck failure => .error failure
termination_by text.length
decreasing_by
  have hless := readDefinition_progresses text
  rw [_h] at hless
  exact hless.2

theorem readDefinitions_eq (text : Text) :
    readDefinitions text =
      match readDefinition text with
      | .found definition rest => (readDefinitions rest).mapValue (definition :: ·)
      | .missing _ => .ok ([], text)
      | .stuck failure => .error failure := by
  rw [readDefinitions]
  split <;> rename_i h <;> simp only [h]

theorem readDefinitions_keeps (text : Text) : Reading.Keeps text (readDefinitions text) := by
  fun_induction readDefinitions text with
  | case1 text definition rest h ih =>
      have hrest := readDefinition_progresses text
      rw [h] at hrest
      exact (ih.of_suffix hrest.1).mapValue _
  | case2 text => exact List.suffix_rfl
  | case3 text failure h =>
      have hrest := readDefinition_progresses text
      rw [h] at hrest
      exact hrest

/-- Definitions up to the end of the source. -/
def readToEnd (text : Text) : Except Stuck (List Definition) :=
  (readDefinitions text).bind fun (definitions, rest) =>
    match skipBlank rest with
    | [] => .ok definitions
    | left => .error { rest := left }

/-- The definitions of a source, or the place where it is not well formed. -/
def read (source : Text) : Except SyntaxError (List Definition) :=
  (readToEnd source).mapError fun failure =>
    ⟨Position.before source failure.rest, failure.expected⟩

end GrammarRepair.Source
