/-!
# Supplies of fresh names

Anonymous rules need names of their own.  A supply is an endless sequence of
64-bit draws; a draw becomes a name by writing it with sixteen hexadecimal
digits behind a stem.  Nothing is assumed about the draws: a name that is taken
is drawn again, a bounded number of times.
-/

namespace GrammarRepair

/-- An endless sequence of draws, and how many of them are used up. -/
structure NameSupply where
  draw : Nat → UInt64
  used : Nat := 0
deriving Inhabited

/-- A number with a given count of hexadecimal digits, the lowest ones. -/
def hexDigits : Nat → Nat → List Char
  | 0, _ => []
  | count + 1, value => hexDigits count (value / 16) ++ [Nat.digitChar (value % 16)]

/-- The name that a draw makes from a stem. -/
def mintedName (stem : String) (draw : UInt64) : String :=
  stem ++ "-" ++ String.ofList (hexDigits 16 draw.toNat)

namespace NameSupply

/-- The supply that counts up from zero. -/
def counting : NameSupply :=
  { draw := UInt64.ofNat }

/-- The next draw and the supply after it. -/
def next (supply : NameSupply) : UInt64 × NameSupply :=
  (supply.draw supply.used, { supply with used := supply.used + 1 })

/-- Draw until a name is not taken, at most `attempts` times. -/
def fresh (taken : String → Bool) (stem : String) :
    (attempts : Nat) → NameSupply → Option String × NameSupply
  | 0, supply => (none, supply)
  | attempts + 1, supply =>
      let (draw, supply) := supply.next
      if taken (mintedName stem draw) then fresh taken stem attempts supply
      else (some (mintedName stem draw), supply)

/-- A name that was found is made from a draw and not taken. -/
theorem exists_draw_and_not_taken_of_fresh
    {taken : String → Bool} {stem name : String} {attempts : Nat} {supply after : NameSupply}
    (hfresh : fresh taken stem attempts supply = (some name, after)) :
    (∃ draw, name = mintedName stem draw) ∧ taken name = false := by
  induction attempts generalizing supply with
  | zero => simp [fresh] at hfresh
  | succ attempts ih =>
      by_cases htaken : taken (mintedName stem (supply.draw supply.used)) = true
      · simp only [fresh, next, htaken, if_true] at hfresh
        exact ih hfresh
      · simp only [fresh, next, htaken, Bool.false_eq_true, if_false, Prod.mk.injEq,
          Option.some.injEq] at hfresh
        obtain ⟨rfl, -⟩ := hfresh
        exact ⟨⟨_, rfl⟩, by simpa using htaken⟩

end NameSupply
end GrammarRepair
