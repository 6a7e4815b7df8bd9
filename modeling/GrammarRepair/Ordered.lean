/-!
# Ordered lists without repeats

Answers that are sets are written as lists: in order, each element once.  The
order is given by a comparison that holds of equal elements too.  What the
ordered list holds (`mem_ordered`) and that it rises strictly
(`pairwise_ordered`) determine it.

Repeats vanish while the sorted halves are joined, so a long list with few
different elements stays cheap.
-/

namespace GrammarRepair

variable {α : Type} [DecidableEq α]

/-- Join two ordered lists into one; an element of both stands there once. -/
def joinOrdered (le : α → α → Bool) : List α → List α → List α
  | [], ys => ys
  | x :: xs, [] => x :: xs
  | x :: xs, y :: ys =>
      if x = y then x :: joinOrdered le xs ys
      else if le x y then x :: joinOrdered le xs (y :: ys)
      else y :: joinOrdered le (x :: xs) ys
termination_by xs ys => xs.length + ys.length

/-- The elements of a list in the order `le`, each once. -/
def ordered (le : α → α → Bool) (xs : List α) : List α :=
  match xs with
  | [] => []
  | [x] => [x]
  | x :: y :: rest =>
      let middle := (rest.length + 2) / 2
      joinOrdered le (ordered le ((x :: y :: rest).take middle))
        (ordered le ((x :: y :: rest).drop middle))
termination_by xs.length
decreasing_by
  · simp only [List.length_take, List.length_cons]
    omega
  · simp only [List.length_drop, List.length_cons]
    omega

@[simp] theorem mem_joinOrdered {le : α → α → Bool} {a : α} {xs ys : List α} :
    a ∈ joinOrdered le xs ys ↔ a ∈ xs ∨ a ∈ ys := by
  fun_induction joinOrdered le xs ys with
  | case1 ys => simp
  | case2 x xs => simp
  | case3 x xs ys ih =>
      simp only [List.mem_cons, ih]
      grind
  | case4 x xs y ys _ _ ih =>
      simp only [List.mem_cons, ih]
      grind
  | case5 x xs y ys _ _ ih =>
      simp only [List.mem_cons, ih]
      grind

@[simp] theorem mem_ordered {le : α → α → Bool} {a : α} {xs : List α} :
    a ∈ ordered le xs ↔ a ∈ xs := by
  fun_induction ordered le xs with
  | case1 => rfl
  | case2 x => rfl
  | case3 x y rest middle ihleft ihright =>
      rw [mem_joinOrdered, ihleft, ihright, ← List.mem_append, List.take_append_drop]

section Order

variable {le : α → α → Bool} (htotal : ∀ a b, (le a b || le b a) = true)
  (htrans : ∀ a b c, le a b = true → le b c = true → le a c = true)
  (hanti : ∀ a b, le a b = true → le b a = true → a = b)

include htotal htrans hanti

/-- Joining two strictly rising lists gives a strictly rising list. -/
theorem pairwise_joinOrdered
    {xs ys : List α} (hxs : xs.Pairwise fun a b => le a b = true ∧ a ≠ b)
    (hys : ys.Pairwise fun a b => le a b = true ∧ a ≠ b) :
    (joinOrdered le xs ys).Pairwise fun a b => le a b = true ∧ a ≠ b := by
  have hstrict : ∀ a b c, (le a b = true ∧ a ≠ b) → (le b c = true ∧ b ≠ c) →
      le a c = true ∧ a ≠ c := fun a b c hab hbc =>
    ⟨htrans a b c hab.1 hbc.1, fun hac => hab.2 (hanti a b hab.1 (hac ▸ hbc.1))⟩
  fun_induction joinOrdered le xs ys with
  | case1 ys => exact hys
  | case2 x xs => exact hxs
  | case3 x xs ys ih =>
      rw [List.pairwise_cons] at hxs hys
      refine List.pairwise_cons.mpr ⟨fun c hc => ?_, ih hxs.2 hys.2⟩
      exact (mem_joinOrdered.mp hc).elim (hxs.1 c) (hys.1 c)
  | case4 x xs y ys hne hle ih =>
      refine List.pairwise_cons.mpr ⟨fun c hc => ?_, ih hxs.tail hys⟩
      rcases mem_joinOrdered.mp hc with hc | hc
      · exact List.rel_of_pairwise_cons hxs hc
      · rcases List.mem_cons.mp hc with rfl | hc
        · exact ⟨hle, hne⟩
        · exact hstrict x y c ⟨hle, hne⟩ (List.rel_of_pairwise_cons hys hc)
  | case5 x xs y ys hne hle ih =>
      have hyx : le y x = true ∧ y ≠ x :=
        ⟨((Bool.or_eq_true _ _).mp (htotal x y)).resolve_left hle, Ne.symm hne⟩
      refine List.pairwise_cons.mpr ⟨fun c hc => ?_, ih hxs hys.tail⟩
      rcases mem_joinOrdered.mp hc with hc | hc
      · rcases List.mem_cons.mp hc with rfl | hc
        · exact hyx
        · exact hstrict y x c hyx (List.rel_of_pairwise_cons hxs hc)
      · exact List.rel_of_pairwise_cons hys hc

/-- An ordered list rises strictly. -/
theorem pairwise_ordered (xs : List α) :
    (ordered le xs).Pairwise fun a b => le a b = true ∧ a ≠ b := by
  fun_induction ordered le xs with
  | case1 => exact .nil
  | case2 x => exact List.pairwise_singleton _ x
  | case3 x y rest middle ihleft ihright =>
      exact pairwise_joinOrdered htotal htrans hanti ihleft ihright

end Order

end GrammarRepair
