import GrammarRepair.Match
import GrammarRepair.Text.Quoted

/-!
# Matches in reports

A report shows a match as the pair of its two quoted texts.
-/

namespace GrammarRepair.Match

/-- A match as a report shows it. -/
def format (m : Match) : Text :=
  '(' :: (Text.quoted m.text ++ [',', ' '] ++ Text.quoted m.rest ++ [')'])

end GrammarRepair.Match
