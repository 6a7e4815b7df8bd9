import GrammarRepair.Source.Expr
import GrammarRepair.Source.Outcome

/-!
# Lexemes of the grammar notation

The smallest pieces of a source: blanks and comments, names, counts, quoted
texts, characters and ranges of characters.  Names and counts reach as far as
they can.  A piece that reaches the end of the source before its closing quote
is missing; an unknown escape is an error right behind it.
-/

namespace GrammarRepair.Source

/-- White space of ASCII. -/
def isBlank (c : Char) : Bool :=
  c == ' ' || c == '\t' || c == '\n' || c == '\x0c' || c == '\r'

mutual

/-- The text behind white space and comments. -/
def skipBlank : Text → Text
  | [] => []
  | c :: rest =>
      if isBlank c then skipBlank rest
      else if c = '#' then skipComment (c :: rest) rest
      else c :: rest

/-- The text behind a comment and what is blank after it.  A comment ends with
the line or the source; one that has a carriage return elsewhere is none, and
then `start`, which still has its sign, is left. -/
def skipComment (start : Text) : Text → Text
  | [] => []
  | '\n' :: rest => skipBlank rest
  | '\r' :: '\n' :: rest => skipBlank rest
  | '\r' :: _ => start
  | _ :: rest => skipComment start rest

end

mutual

theorem skipBlank_suffix (text : Text) : skipBlank text <:+ text := by
  match text with
  | [] => simp [skipBlank]
  | c :: rest =>
      rw [skipBlank]
      split
      · exact (skipBlank_suffix rest).trans (List.suffix_cons c rest)
      · split
        · exact skipComment_suffix List.suffix_rfl rest (List.suffix_cons c rest)
        · exact List.suffix_rfl

theorem skipComment_suffix
    {start whole : Text} (hstart : start <:+ whole) (text : Text) (htext : text <:+ whole) :
    skipComment start text <:+ whole := by
  match text with
  | [] => simp [skipComment]
  | c :: rest =>
      have hrest : rest <:+ whole := (List.suffix_cons c rest).trans htext
      unfold skipComment
      split
      · exact List.nil_suffix
      · rename_i heq
        cases heq
        exact (skipBlank_suffix _).trans hrest
      · rename_i later heq
        cases heq
        exact (skipBlank_suffix later).trans ((List.suffix_cons '\n' later).trans hrest)
      · exact hstart
      · rename_i heq
        cases heq
        exact skipComment_suffix hstart _ hrest

end

/-- This very character. -/
def readSign (sign : Char) : Text → Outcome Unit
  | [] => .missing []
  | c :: rest => if c = sign then .found () rest else .missing (c :: rest)

/-- Whether a name may begin with the character. -/
def isNameStart (c : Char) : Bool :=
  c.isAlpha || c == '_'

/-- Whether a name may go on with the character. -/
def isNamePart (c : Char) : Bool :=
  c.isAlphanum || c == '_' || c == '-'

/-- A name, as long as possible. -/
def readName : Text → Outcome String
  | [] => .missing []
  | c :: rest =>
      if isNameStart c then
        .found (String.ofList (c :: rest.takeWhile isNamePart)) (rest.dropWhile isNamePart)
      else .missing (c :: rest)

/-- The first count that is too large. -/
def countBound : Nat := 4294967296

/-- A count in decimal, as long as possible; a zero stands alone.  A count that
is too large is none at all. -/
def readCount : Text → Outcome Nat
  | [] => .missing []
  | c :: rest =>
      if c = '0' then .found 0 rest
      else if c.isDigit then
        let count := Nat.ofDigitChars 10 (c :: rest.takeWhile Char.isDigit) 0
        if count < countBound then .found count (rest.dropWhile Char.isDigit)
        else .missing (c :: rest)
      else .missing (c :: rest)

/-- The character that an escape stands for. -/
def escapeValue? (c : Char) : Option Char :=
  if c = '"' ∨ c = '\'' ∨ c = '\\' then some c
  else if c = 'n' then some '\n'
  else if c = 't' then some '\t'
  else none

/-- The character behind a backslash. -/
def readEscape : Text → Outcome Char
  | [] => .missing []
  | c :: rest =>
      match escapeValue? c with
      | some value => .found value rest
      | none => .stuck { rest }

/-- The rest of a text up to its closing quote. -/
def readTextEnd : Text → Outcome Text
  | [] => .missing []
  | '"' :: rest => .found [] rest
  | ['\\'] => .missing []
  | '\\' :: c :: rest =>
      match escapeValue? c with
      | some value => (readTextEnd rest).map (value :: ·)
      | none => .stuck { rest }
  | c :: rest => (readTextEnd rest).map (c :: ·)

/-- A text between double quotes. -/
def readText : Text → Outcome Text
  | [] => .missing []
  | c :: rest => if c = '"' then readTextEnd rest else .missing (c :: rest)

/-- What is quoted in a character literal: one character or an escape. -/
def readQuoted : Text → Outcome Char
  | [] => .missing []
  | c :: rest => if c = '\\' then readEscape rest else .found c rest

/-- A character between single quotes. -/
def readCharacter : Text → Outcome Char
  | [] => .missing []
  | c :: rest =>
      if c = '\'' then
        match readQuoted rest with
        | .found value rest =>
            match readSign '\'' rest with
            | .found _ rest => .found value rest
            | .missing rest => .stuck ⟨rest, [.sign '\'']⟩
            | .stuck failure => .stuck failure
        | outcome => outcome
      else .missing (c :: rest)

/-- The upper end of a range, if two dots announce one; otherwise `low`. -/
def readUpperEnd (low : Char) (text : Text) : Reading Char :=
  match skipBlank text with
  | '.' :: '.' :: rest => (readCharacter (skipBlank rest)).require []
  | _ => .ok (low, text)

/-- One character, or two as the ends of a range. -/
def readRange (text : Text) : Outcome Expr :=
  match readCharacter text with
  | .found low rest =>
      match readUpperEnd low rest with
      | .ok (high, rest) => .found (.range low high) rest
      | .error failure => .stuck failure
  | .missing rest => .missing rest
  | .stuck failure => .stuck failure

/-! Every lexeme that is found uses up at least one character. -/

theorem dropWhile_progresses {α : Type} (value : α) (p : Char → Bool) (c : Char) (rest : Text) :
    Outcome.Progresses (c :: rest) (.found value (rest.dropWhile p)) :=
  ⟨(List.dropWhile_suffix p).trans (List.suffix_cons c rest),
    Nat.lt_succ_of_le (List.dropWhile_suffix p).length_le⟩

theorem cons_progresses {α : Type} (value : α) (c : Char) (rest : Text) :
    Outcome.Progresses (c :: rest) (.found value rest) :=
  ⟨List.suffix_cons c rest, Nat.lt_succ_self _⟩

theorem readSign_progresses (sign : Char) (text : Text) :
    (readSign sign text).Progresses text := by
  cases text with
  | nil => exact List.suffix_rfl
  | cons c rest =>
      unfold readSign
      dsimp only
      split
      · exact cons_progresses () c rest
      · exact List.suffix_rfl

theorem readName_progresses (text : Text) : (readName text).Progresses text := by
  cases text with
  | nil => exact List.suffix_rfl
  | cons c rest =>
      unfold readName
      dsimp only
      split
      · exact dropWhile_progresses _ _ c rest
      · exact List.suffix_rfl

theorem readCount_progresses (text : Text) : (readCount text).Progresses text := by
  cases text with
  | nil => exact List.suffix_rfl
  | cons c rest =>
      unfold readCount
      dsimp only
      split
      · exact cons_progresses 0 c rest
      · split
        · split
          · exact dropWhile_progresses _ _ c rest
          · exact List.suffix_rfl
        · exact List.suffix_rfl

theorem readEscape_progresses (text : Text) : (readEscape text).Progresses text := by
  cases text with
  | nil => exact List.suffix_rfl
  | cons c rest =>
      unfold readEscape
      dsimp only
      split
      · exact cons_progresses _ c rest
      · exact List.suffix_cons c rest

theorem readTextEnd_progresses (text : Text) : (readTextEnd text).Progresses text := by
  fun_induction readTextEnd text with
  | case1 => exact List.suffix_rfl
  | case2 rest => exact cons_progresses _ _ rest
  | case3 => exact List.nil_suffix
  | case4 c rest value _ ih =>
      have hrest := (List.suffix_cons c rest).trans (List.suffix_cons '\\' (c :: rest))
      exact (ih.of_suffix hrest).map _
  | case5 c rest =>
      exact (List.suffix_cons c rest).trans (List.suffix_cons '\\' (c :: rest))
  | case6 c rest _ _ _ ih => exact (ih.of_suffix (List.suffix_cons c rest)).map _

theorem readText_progresses (text : Text) : (readText text).Progresses text := by
  cases text with
  | nil => exact List.suffix_rfl
  | cons c rest =>
      unfold readText
      dsimp only
      split
      · exact (readTextEnd_progresses rest).of_suffix (List.suffix_cons c rest)
      · exact List.suffix_rfl

theorem readQuoted_progresses (text : Text) : (readQuoted text).Progresses text := by
  cases text with
  | nil => exact List.suffix_rfl
  | cons c rest =>
      unfold readQuoted
      dsimp only
      split
      · exact (readEscape_progresses rest).of_suffix (List.suffix_cons c rest)
      · exact cons_progresses c c rest

theorem readCharacter_progresses (text : Text) : (readCharacter text).Progresses text := by
  cases text with
  | nil => exact List.suffix_rfl
  | cons c rest =>
      unfold readCharacter
      dsimp only
      split
      · have hquoted := (readQuoted_progresses rest).of_suffix (List.suffix_cons c rest)
        split
        · rename_i value later hfound
          rw [hfound] at hquoted
          have hsign := (readSign_progresses '\'' later).of_suffix hquoted.1
          split <;> rename_i hread <;> rw [hread] at hsign <;> exact hsign
        · exact hquoted
      · exact List.suffix_rfl

theorem readUpperEnd_keeps (low : Char) (text : Text) :
    Reading.Keeps text (readUpperEnd low text) := by
  unfold readUpperEnd
  split
  · rename_i rest hrest
    have hsuffix : '.' :: '.' :: rest <:+ text := hrest ▸ skipBlank_suffix text
    refine Reading.keeps_require ((readCharacter_progresses _).of_suffix ?_)
    exact (skipBlank_suffix rest).trans
      (((List.suffix_cons '.' rest).trans (List.suffix_cons '.' _)).trans hsuffix)
  · exact List.suffix_rfl

theorem readRange_progresses (text : Text) : (readRange text).Progresses text := by
  have hlow := readCharacter_progresses text
  unfold readRange
  split <;> rename_i hread <;> rw [hread] at hlow
  · rename_i low rest
    have hupper := readUpperEnd_keeps low rest
    split <;> rename_i hread <;> rw [hread] at hupper
    · exact ⟨List.IsSuffix.trans hupper hlow.1,
        Nat.lt_of_le_of_lt (List.IsSuffix.length_le hupper) hlow.2⟩
    · exact List.IsSuffix.trans hupper hlow.1
  · exact hlow
  · exact hlow

end GrammarRepair.Source
