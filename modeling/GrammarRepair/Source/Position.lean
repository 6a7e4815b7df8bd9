import GrammarRepair.Text

/-!
# Positions and syntax errors

A position counts lines and, within the line, characters, both from one.  It is
determined by the text in front of it, and only a line feed starts a new line.
A syntax error says where reading could not go on and what would have been
accepted there, the innermost expectation first.
-/

namespace GrammarRepair.Source

/-- A place in a source. -/
structure Position where
  line : Nat
  column : Nat
deriving DecidableEq, Repr, Inhabited

namespace Position

/-- The beginning of a source. -/
def start : Position := ⟨1, 1⟩

/-- The place behind one more character. -/
def advance (position : Position) (c : Char) : Position :=
  if c = '\n' then ⟨position.line + 1, 1⟩ else ⟨position.line, position.column + 1⟩

/-- The place behind a text. -/
def after (consumed : Text) : Position :=
  consumed.foldl advance start

/-- The place in a source that has `rest` left. -/
def before (source rest : Text) : Position :=
  after (source.take (source.length - rest.length))

/-- Places in the order of their lines, and of their columns within a line. -/
instance : LT Position where
  lt first second :=
    first.line < second.line ∨ first.line = second.line ∧ first.column < second.column

theorem lt_iff {first second : Position} :
    first < second ↔
      first.line < second.line ∨ first.line = second.line ∧ first.column < second.column :=
  Iff.rfl

protected theorem lt_irrefl (position : Position) : ¬position < position := by
  rw [lt_iff]
  omega

protected theorem lt_trans {first second third : Position} (h : first < second)
    (h' : second < third) : first < third := by
  rw [lt_iff] at h h' ⊢
  omega

theorem lt_advance (position : Position) (c : Char) : position < position.advance c := by
  unfold advance
  split
  · exact .inl (Nat.lt_succ_self _)
  · exact .inr ⟨rfl, Nat.lt_succ_self _⟩

theorem lt_foldl_advance (position : Position) {more : Text} (hmore : more ≠ []) :
    position < more.foldl advance position := by
  induction more generalizing position with
  | nil => exact absurd rfl hmore
  | cons c more ih =>
      have hstep := lt_advance position c
      by_cases hlast : more = []
      · rwa [hlast]
      · exact Position.lt_trans hstep (ih (position.advance c) hlast)

/-- Behind more text, the place is a later one. -/
theorem after_lt_after_append {consumed more : Text} (hmore : more ≠ []) :
    after consumed < after (consumed ++ more) := by
  rw [after, after, List.foldl_append]
  exact lt_foldl_advance _ hmore

/-- Of two beginnings of a source, the place tells which one it is. -/
theorem eq_of_after_eq {source first second : Text} (hfirst : first <+: source)
    (hsecond : second <+: source) (h : after first = after second) : first = second := by
  have hextend {front more : Text} (h : after (front ++ more) = after front) : more = [] := by
    refine Classical.byContradiction fun hmore => Position.lt_irrefl (after front) ?_
    have hless : after front < after (front ++ more) := after_lt_after_append hmore
    rwa [h] at hless
  obtain ⟨more, rfl⟩ | ⟨more, rfl⟩ := List.prefix_or_prefix_of_prefix hfirst hsecond
  · rw [hextend h.symm, List.append_nil]
  · rw [hextend h, List.append_nil]

/-- The consumed text determines the place. -/
theorem before_append (consumed rest : Text) :
    before (consumed ++ rest) rest = after consumed := by
  simp [before]

end Position

/-- What a source could have gone on with. -/
inductive Expectation where
  /-- This very character. -/
  | sign (c : Char)
  /-- The count of a repetition. -/
  | count
  /-- Something in the body of a definition. -/
  | body
deriving DecidableEq, Repr, Inhabited

/-- The wording of an expectation. -/
def Expectation.label : Expectation → String
  | .sign c => "`" ++ String.singleton c ++ "`"
  | .count => "repetition count"
  | .body => "rule body"

/-- A place where a source is not well formed, and what was expected there. -/
structure SyntaxError where
  position : Position
  expected : List Expectation
deriving DecidableEq, Repr, Inhabited

namespace SyntaxError

/-- What is wrong. -/
def detail (error : SyntaxError) : String :=
  match error.expected with
  | [] => "unexpected input"
  | expected => "expected " ++ String.intercalate ", " (expected.map Expectation.label)

/-- Where and what. -/
def message (error : SyntaxError) : String :=
  "parse error at line " ++ toString error.position.line ++ ", column " ++
    toString error.position.column ++ ": " ++ error.detail

end SyntaxError
end GrammarRepair.Source
