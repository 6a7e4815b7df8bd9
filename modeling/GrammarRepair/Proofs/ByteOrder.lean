import GrammarRepair.Text.Order
import Mathlib.Algebra.Group.Nat.Defs
import Mathlib.Tactic.SplitIfs

/-!
# The order of encoded texts

UTF-8 keeps the order of texts: of two texts, the one that stands first by its
characters also stands first by its bytes.

The first byte of a character carries its highest digits to the base 64 above a
mark for the number of bytes that follow, and each of those carries one more
digit.  A greater mark belongs to a greater character, and among characters of
one length the digits decide, the highest first.  So two different characters
differ inside their encodings, whatever stands behind them.
-/

namespace GrammarRepair.Text

/-- The lowest digits of a code point, the highest of them first, each in a byte
of its own. -/
def continuation : Nat → Nat → List UInt8
  | 0, _ => []
  | count + 1, value => UInt8.ofNat (value / 64 ^ count % 64 + 0x80) :: continuation count value

/-- How many bytes follow the first byte of a code point. -/
def continuationCount (value : Nat) : Nat :=
  if value ≤ 0x7f then 0
  else if value ≤ 0x7ff then 1
  else if value ≤ 0xffff then 2
  else 3

/-- The first byte of a code point: the digits that do not follow it, above a
mark for the number of those that do. -/
def leadingByte (value : Nat) : Nat :=
  if value ≤ 0x7f then value
  else if value ≤ 0x7ff then value / 64 + 0xc0
  else if value ≤ 0xffff then value / 4096 + 0xe0
  else value / 262144 + 0xf0

theorem toNat_lt (c : Char) : c.toNat < 0x110000 := by
  rcases c.valid with hlow | hhigh
  · exact Nat.lt_trans hlow (by decide)
  · exact hhigh.2

theorem utf8EncodeChar_eq (c : Char) :
    String.utf8EncodeChar c =
      UInt8.ofNat (leadingByte c.toNat) :: continuation (continuationCount c.toNat) c.toNat := by
  have hvalue := toNat_lt c
  rw [← Char.toNat_val] at *
  unfold String.utf8EncodeChar leadingByte continuationCount
  dsimp only
  generalize c.val.toNat = value at *
  split_ifs
  · rfl
  · rw [Nat.mod_eq_of_lt (by omega : value / 64 < 32)]
    simp [continuation]
  · rw [Nat.mod_eq_of_lt (by omega : value / 4096 < 16)]
    simp [continuation]
  · rw [Nat.mod_eq_of_lt (by omega : value / 262144 < 8)]
    simp [continuation]

/-! ## Bytes -/

theorem lex_ofNat_cons
    {a b : Nat} {s t : List UInt8} (hb : b < 256)
    (h : a < b ∨ a = b ∧ List.Lex (· < ·) s t) :
    List.Lex (· < ·) (UInt8.ofNat a :: s) (UInt8.ofNat b :: t) := by
  rcases h with hlt | ⟨rfl, hlater⟩
  · apply List.Lex.rel
    rw [UInt8.lt_iff_toNat_lt, UInt8.toNat_ofNat', UInt8.toNat_ofNat',
      Nat.mod_eq_of_lt (Nat.lt_trans hlt hb), Nat.mod_eq_of_lt hb]
    exact hlt
  · exact List.Lex.cons hlater

/-- Digits compare as the numbers they write. -/
theorem lex_continuation
    {count a b : Nat} (hab : a % 64 ^ count < b % 64 ^ count) (s t : List UInt8) :
    List.Lex (· < ·) (continuation count a ++ s) (continuation count b ++ t) := by
  induction count with
  | zero =>
      rw [Nat.pow_zero, Nat.mod_one, Nat.mod_one] at hab
      exact absurd hab (Nat.lt_irrefl 0)
  | succ count ih =>
      rw [Nat.mod_pow_succ, Nat.mod_pow_succ] at hab
      have hdigit : b / 64 ^ count % 64 < 64 := Nat.mod_lt _ (by decide)
      rcases Nat.lt_trichotomy (a / 64 ^ count % 64) (b / 64 ^ count % 64) with hlt | heq | hgt
      · exact lex_ofNat_cons (by omega) (.inl (by omega))
      · rw [heq] at hab
        exact lex_ofNat_cons (by omega) (.inr ⟨by omega, ih (by omega)⟩)
      · have hhigh := Nat.mul_le_mul_left (64 ^ count) hgt
        have hlow : b % 64 ^ count < 64 ^ count := Nat.mod_lt b (Nat.pow_pos (by decide))
        rw [Nat.mul_succ] at hhigh
        omega

theorem leadingByte_lt {value : Nat} (hvalue : value < 0x110000) : leadingByte value < 256 := by
  unfold leadingByte
  split_ifs <;> omega

/-- Of two code points with different numbers of bytes, the greater has the
greater mark. -/
theorem leadingByte_lt_of_ne
    {a b : Nat} (hab : a < b) (hcount : continuationCount a ≠ continuationCount b) :
    leadingByte a < leadingByte b := by
  unfold leadingByte continuationCount at *
  split_ifs at * <;> omega

/-- With the same number of bytes, the first byte holds the higher digits. -/
theorem leadingByte_lt_or_eq
    {a b : Nat} (hab : a < b) (hcount : continuationCount a = continuationCount b) :
    leadingByte a < leadingByte b ∨ leadingByte a = leadingByte b ∧
      a % 64 ^ continuationCount b < b % 64 ^ continuationCount b := by
  unfold leadingByte continuationCount at *
  split_ifs at * <;> omega

/-! ## Characters and texts -/

/-- A smaller character has the smaller encoding, and what follows does not
matter. -/
theorem lex_utf8EncodeChar {c d : Char} (hcd : c < d) (s t : List UInt8) :
    List.Lex (· < ·) (String.utf8EncodeChar c ++ s) (String.utf8EncodeChar d ++ t) := by
  have hlt : c.toNat < d.toNat := hcd
  rw [utf8EncodeChar_eq, utf8EncodeChar_eq]
  apply lex_ofNat_cons (leadingByte_lt (toNat_lt d))
  by_cases hcount : continuationCount c.toNat = continuationCount d.toNat
  · rw [hcount]
    rcases leadingByte_lt_or_eq hlt hcount with hlead | ⟨hlead, hdigits⟩
    · exact .inl hlead
    · exact .inr ⟨hlead, lex_continuation hdigits s t⟩
  · exact .inl (leadingByte_lt_of_ne hlt hcount)

theorem utf8_cons (c : Char) (text : Text) :
    utf8 (c :: text) = String.utf8EncodeChar c ++ utf8 text :=
  List.flatMap_cons

/-- The order of texts by their characters is the order by their bytes. -/
theorem lex_utf8_of_alphabetic
    {a b : Text} (hab : alphabetic a b = true) (hne : a ≠ b) :
    List.Lex (· < ·) (utf8 a) (utf8 b) := by
  induction a generalizing b with
  | nil =>
      obtain ⟨d, b, rfl⟩ := List.exists_cons_of_ne_nil (Ne.symm hne)
      rw [utf8_cons, utf8EncodeChar_eq]
      exact List.Lex.nil
  | cons c a ih =>
      cases b with
      | nil => simp [alphabetic] at hab
      | cons d b =>
          rw [utf8_cons, utf8_cons]
          rcases (alphabetic_cons_iff c d a b).mp hab with hlt | ⟨rfl, hlater⟩
          · exact lex_utf8EncodeChar hlt _ _
          · have hrest : a ≠ b := by
              rintro rfl
              exact hne rfl
            exact List.append_left_lt (ih hlater hrest)

end GrammarRepair.Text
