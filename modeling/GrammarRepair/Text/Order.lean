import GrammarRepair.Text

/-!
# The order of repairs

Longer texts come first, measured in bytes; texts of one size come in the order
of their characters.  UTF-8 keeps the order of code points, so comparing
characters is comparing bytes.  The order is total, transitive and
antisymmetric, so a sorted list of different texts is determined by its members.
-/

namespace GrammarRepair.Text

/-- Whether `a` equals `b` or stands before it, character by character. -/
def alphabetic : Text → Text → Bool
  | [], _ => true
  | _ :: _, [] => false
  | c :: a, d :: b => decide (c < d) || (c == d && alphabetic a b)

/-- Whether `a` equals `b` or comes before it among repairs. -/
def comesBefore (a b : Text) : Bool :=
  decide (byteLength b < byteLength a) || (byteLength a == byteLength b && alphabetic a b)

theorem alphabetic_cons_iff (c d : Char) (a b : Text) :
    alphabetic (c :: a) (d :: b) = true ↔ c < d ∨ c = d ∧ alphabetic a b = true := by
  simp [alphabetic]

theorem alphabetic_total (a b : Text) : (alphabetic a b || alphabetic b a) = true := by
  induction a generalizing b with
  | nil => simp [alphabetic]
  | cons c a ih =>
      cases b with
      | nil => simp [alphabetic]
      | cons d b =>
          rw [Bool.or_eq_true, alphabetic_cons_iff, alphabetic_cons_iff]
          by_cases hlt : c < d
          · exact .inl (.inl hlt)
          · by_cases hgt : d < c
            · exact .inr (.inl hgt)
            · have heq : c = d := Char.le_antisymm (Char.not_lt.mp hgt) (Char.not_lt.mp hlt)
              subst heq
              rcases (Bool.or_eq_true _ _).mp (ih b) with h | h
              · exact .inl (.inr ⟨rfl, h⟩)
              · exact .inr (.inr ⟨rfl, h⟩)

theorem alphabetic_trans
    {a b c : Text} (hab : alphabetic a b = true) (hbc : alphabetic b c = true) :
    alphabetic a c = true := by
  induction a generalizing b c with
  | nil => simp [alphabetic]
  | cons x a ih =>
      cases b with
      | nil => simp [alphabetic] at hab
      | cons y b =>
          cases c with
          | nil => simp [alphabetic] at hbc
          | cons z c =>
              rw [alphabetic_cons_iff] at hab hbc ⊢
              rcases hab with hxy | ⟨rfl, hab⟩
              · rcases hbc with hyz | ⟨rfl, -⟩
                · exact .inl (Char.lt_trans hxy hyz)
                · exact .inl hxy
              · rcases hbc with hyz | ⟨rfl, hbc⟩
                · exact .inl hyz
                · exact .inr ⟨rfl, ih hab hbc⟩

theorem alphabetic_antisymm
    {a b : Text} (hab : alphabetic a b = true) (hba : alphabetic b a = true) : a = b := by
  induction a generalizing b with
  | nil =>
      cases b with
      | nil => rfl
      | cons d b => simp [alphabetic] at hba
  | cons c a ih =>
      cases b with
      | nil => simp [alphabetic] at hab
      | cons d b =>
          rw [alphabetic_cons_iff] at hab hba
          rcases hab with hlt | ⟨rfl, hab⟩
          · rcases hba with hgt | ⟨rfl, -⟩
            · exact absurd (Char.lt_trans hlt hgt) (Char.lt_irrefl c)
            · exact absurd hlt (Char.lt_irrefl d)
          · rcases hba with hgt | ⟨-, hba⟩
            · exact absurd hgt (Char.lt_irrefl c)
            · rw [ih hab hba]

theorem comesBefore_iff (a b : Text) :
    comesBefore a b = true ↔
      byteLength b < byteLength a ∨ byteLength a = byteLength b ∧ alphabetic a b = true := by
  simp [comesBefore]

theorem comesBefore_total (a b : Text) : (comesBefore a b || comesBefore b a) = true := by
  rw [Bool.or_eq_true, comesBefore_iff, comesBefore_iff]
  rcases Nat.lt_trichotomy (byteLength a) (byteLength b) with hlt | heq | hgt
  · exact .inr (.inl hlt)
  · rcases (Bool.or_eq_true _ _).mp (alphabetic_total a b) with h | h
    · exact .inl (.inr ⟨heq, h⟩)
    · exact .inr (.inr ⟨heq.symm, h⟩)
  · exact .inl (.inl hgt)

theorem comesBefore_trans
    (a b c : Text) (hab : comesBefore a b = true) (hbc : comesBefore b c = true) :
    comesBefore a c = true := by
  rw [comesBefore_iff] at *
  rcases hab with hab | ⟨hab, hab'⟩
  · exact .inl (by omega)
  · rcases hbc with hbc | ⟨hbc, hbc'⟩
    · exact .inl (by omega)
    · exact .inr ⟨hab.trans hbc, alphabetic_trans hab' hbc'⟩

theorem comesBefore_antisymm
    (a b : Text) (hab : comesBefore a b = true) (hba : comesBefore b a = true) : a = b := by
  rw [comesBefore_iff] at *
  rcases hab with hab | ⟨heq, hab⟩
  · omega
  · rcases hba with hba | ⟨-, hba⟩
    · omega
    · exact alphabetic_antisymm hab hba

end GrammarRepair.Text
