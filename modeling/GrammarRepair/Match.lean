import GrammarRepair.Text

/-!
# Matches

A match is one way in which a rule accepts the beginning of an input: the text
it accepts, which a repair may have changed, and the input that is left.
-/

namespace GrammarRepair

/-- Accepted text and remaining input. -/
structure Match where
  text : Text
  rest : Text
deriving DecidableEq, Repr, Inhabited

namespace Match

/-- Whether no input is left. -/
def isComplete (m : Match) : Bool :=
  m.rest.isEmpty

/-- The match `m`, preceded by text that was accepted before it.  Joining with
nothing shares the earlier text instead of copying it. -/
def precededBy (head : Text) (m : Match) : Match :=
  match m.text with
  | [] => ⟨head, m.rest⟩
  | _ :: _ => ⟨head ++ m.text, m.rest⟩

@[simp] theorem precededBy_mk (head text rest : Text) :
    precededBy head ⟨text, rest⟩ = ⟨head ++ text, rest⟩ := by
  cases text <;> simp [precededBy]

@[simp] theorem text_precededBy (head : Text) (m : Match) :
    (m.precededBy head).text = head ++ m.text := by
  cases m; simp

@[simp] theorem rest_precededBy (head : Text) (m : Match) :
    (m.precededBy head).rest = m.rest := by
  cases m; simp

theorem precededBy_nil : precededBy [] = id := by
  funext m
  cases m; simp

theorem precededBy_precededBy (first second : Text) (m : Match) :
    (m.precededBy second).precededBy first = m.precededBy (first ++ second) := by
  cases m; simp

theorem isComplete_iff (m : Match) : m.isComplete = true ↔ m.rest = [] := by
  simp [isComplete]

end Match
end GrammarRepair
