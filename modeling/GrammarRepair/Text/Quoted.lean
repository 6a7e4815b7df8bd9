import GrammarRepair.Text.Printable
import GrammarRepair.Text

/-!
# Quoted texts in reports

A report shows a text between double quotes.  Characters with a short escape
take it, printable ones stand for themselves, and all others show their code
point in hexadecimal.
-/

namespace GrammarRepair.Text

/-- One character as a report shows it. -/
def quotedChar (c : Char) : Text :=
  match c with
  | '\x00' => "\\0".toList
  | '\t' => "\\t".toList
  | '\r' => "\\r".toList
  | '\n' => "\\n".toList
  | '\\' => "\\\\".toList
  | '"' => "\\\"".toList
  | c =>
      if isPrintable c then [c]
      else "\\u\x7b".toList ++ Nat.toDigits 16 c.toNat ++ "\x7d".toList

/-- A text as a report shows it. -/
def quoted (text : Text) : Text :=
  '"' :: (text.flatMap quotedChar ++ ['"'])

end GrammarRepair.Text
