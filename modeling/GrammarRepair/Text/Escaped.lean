import GrammarRepair.Text

/-!
# Escapes of the grammar notation

Inside quotes the notation writes a backslash, a line feed, a tab and the
closing quote with a backslash in front; every other character stands for
itself.
-/

namespace GrammarRepair.Text

/-- One character as it stands between two `quote`s. -/
def escapedChar (quote c : Char) : Text :=
  if c = '\\' then ['\\', '\\']
  else if c = '\n' then ['\\', 'n']
  else if c = '\t' then ['\\', 't']
  else if c = quote then ['\\', quote]
  else [c]

/-- A text as it stands between two `quote`s. -/
def escaped (quote : Char) (text : Text) : Text :=
  text.flatMap (escapedChar quote)

/-- A text between two `quote`s. -/
def enclosed (quote : Char) (text : Text) : Text :=
  quote :: (escaped quote text ++ [quote])

@[simp] theorem escaped_nil (quote : Char) : escaped quote [] = [] := rfl

@[simp] theorem escaped_cons (quote c : Char) (text : Text) :
    escaped quote (c :: text) = escapedChar quote c ++ escaped quote text := by
  simp [escaped]

end GrammarRepair.Text
