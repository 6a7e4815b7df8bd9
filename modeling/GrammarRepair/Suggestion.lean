import GrammarRepair.Match

/-!
# Suggestions

A suggestion proposes repairs at a place where nothing matches directly.  The
ready-made ones look at the input only through its first character, and each of
their proposals leaves either that input or the input without its first
character.  Any other function will do as long as it leaves no more bytes than it
was given; that is `byteLength_rest_le_of_mem_offers`, on which the termination
of matching rests.

A function may leave another text of the same size, or a shorter one that its
input does not contain.  What needs more than the sizes says so by `LeavesEnds`,
which holds of all suggestions that are put together from the ready-made ones.
-/

namespace GrammarRepair

/-- A way to propose repairs for the beginning of an input. -/
inductive Suggestion where
  /-- Each text in place of the first character. -/
  | replace (texts : List Text)
  /-- Each text before the input and, if there is one, in place of the first
  character. -/
  | insertOrReplace (texts : List Text)
  /-- A character in place of the first one, unless that is `except`. -/
  | replaceUnless (char except : Char)
  /-- Each text in place of the first character, if that is `trigger`. -/
  | replaceWhen (texts : List Text) (trigger : Char)
  /-- The first character in lower case, if it is an ASCII letter. -/
  | lowercase
  /-- All proposals of all parts, in order. -/
  | merge (parts : List Suggestion)
  /-- The proposals of `primary`, or those of `fallback` if it has none. -/
  | orElse (primary fallback : Suggestion)
  /-- The proposals of a function that never leaves more than it was given. -/
  | custom (propose : Text → List Match)
      (leavesNoMore : ∀ input, ∀ m ∈ propose input, m.rest.byteLength ≤ input.byteLength)
deriving Inhabited

namespace Suggestion

/-- One character in place of the first one. -/
def constant (char : Char) : Suggestion :=
  .replace [[char]]

mutual

/-- The proposals for an input, in order. -/
def offers : Suggestion → Text → List Match
  | .replace _, [] => []
  | .replace texts, _ :: rest => texts.map (⟨·, rest⟩)
  | .insertOrReplace texts, [] => texts.map (⟨·, []⟩)
  | .insertOrReplace texts, c :: rest => texts.flatMap fun text => [⟨text, c :: rest⟩, ⟨text, rest⟩]
  | .replaceUnless _ _, [] => []
  | .replaceUnless char except, c :: rest => if c = except then [] else [⟨[char], rest⟩]
  | .replaceWhen _ _, [] => []
  | .replaceWhen texts trigger, c :: rest => if c = trigger then texts.map (⟨·, rest⟩) else []
  | .lowercase, [] => []
  | .lowercase, c :: rest => if c.isAlpha then [⟨[c.toLower], rest⟩] else []
  | .merge parts, input => offersOfAll parts input
  | .orElse primary fallback, input =>
      match primary.offers input with
      | [] => fallback.offers input
      | found => found
  | .custom propose _, input => propose input

/-- The proposals of several suggestions for one input. -/
def offersOfAll : List Suggestion → Text → List Match
  | [], _ => []
  | part :: parts, input => part.offers input ++ offersOfAll parts input

end

theorem offersOfAll_eq_flatMap (parts : List Suggestion) (input : Text) :
    offersOfAll parts input = parts.flatMap (offers · input) := by
  induction parts with
  | nil => rfl
  | cons part parts ih => simp [offersOfAll, ih]

theorem offers_merge (parts : List Suggestion) (input : Text) :
    (merge parts).offers input = parts.flatMap (offers · input) := by
  rw [offers, offersOfAll_eq_flatMap]

/-! ## What proposals leave -/

mutual

/-- The functions that a suggestion is put together from, besides the ready-made
ones. -/
def functions : Suggestion → List (Text → List Match)
  | .replace _ | .insertOrReplace _ | .replaceUnless _ _ | .replaceWhen _ _ | .lowercase => []
  | .merge parts => functionsOfAll parts
  | .orElse primary fallback => primary.functions ++ fallback.functions
  | .custom propose _ => [propose]

/-- The functions of several suggestions. -/
def functionsOfAll : List Suggestion → List (Text → List Match)
  | [] => []
  | part :: parts => part.functions ++ functionsOfAll parts

end

mutual

/-- The ready-made suggestions leave the input, or the input without its first
character; so what is left otherwise depends on the functions. -/
theorem leaves_of_mem_offers
    (leaves : Text → Text → Prop) (hself : ∀ input, leaves input input)
    (hcons : ∀ c rest, leaves rest (c :: rest))
    {suggestion : Suggestion} {input : Text} {m : Match}
    (hfunctions : ∀ propose ∈ suggestion.functions, ∀ input, ∀ m ∈ propose input,
      leaves m.rest input)
    (hm : m ∈ suggestion.offers input) :
    leaves m.rest input := by
  match suggestion, input with
  | .replace _, [] | .replaceUnless _ _, [] | .replaceWhen _ _, [] | .lowercase, [] =>
      simp [offers] at hm
  | .replace texts, c :: rest =>
      obtain ⟨text, -, rfl⟩ := List.mem_map.mp (by simpa [offers] using hm)
      exact hcons c rest
  | .insertOrReplace texts, [] =>
      obtain ⟨text, -, rfl⟩ := List.mem_map.mp (by simpa [offers] using hm)
      exact hself []
  | .insertOrReplace texts, c :: rest =>
      simp only [offers, List.mem_flatMap, List.mem_cons, List.not_mem_nil, or_false] at hm
      obtain ⟨text, -, rfl | rfl⟩ := hm
      · exact hself (c :: rest)
      · exact hcons c rest
  | .replaceUnless char except, c :: rest =>
      simp only [offers] at hm
      split at hm
      · simp at hm
      · obtain rfl := List.mem_singleton.mp hm
        exact hcons c rest
  | .replaceWhen texts trigger, c :: rest =>
      simp only [offers] at hm
      split at hm
      · obtain ⟨text, -, rfl⟩ := List.mem_map.mp hm
        exact hcons c rest
      · simp at hm
  | .lowercase, c :: rest =>
      simp only [offers] at hm
      split at hm
      · obtain rfl := List.mem_singleton.mp hm
        exact hcons c rest
      · simp at hm
  | .merge parts, input =>
      exact leaves_of_mem_offersOfAll leaves hself hcons hfunctions (by simpa [offers] using hm)
  | .orElse primary fallback, input =>
      simp only [functions, List.forall_mem_append] at hfunctions
      simp only [offers] at hm
      split at hm
      · exact leaves_of_mem_offers leaves hself hcons hfunctions.2 hm
      · exact leaves_of_mem_offers leaves hself hcons hfunctions.1 hm
  | .custom propose _, input =>
      exact hfunctions propose (List.mem_singleton_self _) input m (by simpa [offers] using hm)

/-- The same for several suggestions. -/
theorem leaves_of_mem_offersOfAll
    (leaves : Text → Text → Prop) (hself : ∀ input, leaves input input)
    (hcons : ∀ c rest, leaves rest (c :: rest))
    {parts : List Suggestion} {input : Text} {m : Match}
    (hfunctions : ∀ propose ∈ functionsOfAll parts, ∀ input, ∀ m ∈ propose input,
      leaves m.rest input)
    (hm : m ∈ offersOfAll parts input) :
    leaves m.rest input := by
  match parts with
  | [] => simp [offersOfAll] at hm
  | part :: parts =>
      simp only [functionsOfAll, List.forall_mem_append] at hfunctions
      rcases List.mem_append.mp (by simpa [offersOfAll] using hm) with hm | hm
      · exact leaves_of_mem_offers leaves hself hcons hfunctions.1 hm
      · exact leaves_of_mem_offersOfAll leaves hself hcons hfunctions.2 hm

end

mutual

theorem byteLength_rest_le_of_mem_functions
    {suggestion : Suggestion} {propose : Text → List Match}
    (hpropose : propose ∈ suggestion.functions) {input : Text} {m : Match}
    (hm : m ∈ propose input) :
    m.rest.byteLength ≤ input.byteLength := by
  match suggestion with
  | .replace _ | .insertOrReplace _ | .replaceUnless _ _ | .replaceWhen _ _ | .lowercase =>
      simp [functions] at hpropose
  | .merge parts =>
      exact byteLength_rest_le_of_mem_functionsOfAll (by simpa [functions] using hpropose) hm
  | .orElse primary fallback =>
      rcases List.mem_append.mp (by simpa [functions] using hpropose) with hpropose | hpropose
      · exact byteLength_rest_le_of_mem_functions hpropose hm
      · exact byteLength_rest_le_of_mem_functions hpropose hm
  | .custom own leavesNoMore =>
      obtain rfl := List.mem_singleton.mp hpropose
      exact leavesNoMore input m hm

theorem byteLength_rest_le_of_mem_functionsOfAll
    {parts : List Suggestion} {propose : Text → List Match}
    (hpropose : propose ∈ functionsOfAll parts) {input : Text} {m : Match}
    (hm : m ∈ propose input) :
    m.rest.byteLength ≤ input.byteLength := by
  match parts with
  | [] => simp [functionsOfAll] at hpropose
  | part :: parts =>
      rcases List.mem_append.mp (by simpa [functionsOfAll] using hpropose) with hpropose | hpropose
      · exact byteLength_rest_le_of_mem_functions hpropose hm
      · exact byteLength_rest_le_of_mem_functionsOfAll hpropose hm

end

/-- No proposal leaves more than the input. -/
theorem byteLength_rest_le_of_mem_offers
    {suggestion : Suggestion} {input : Text} {m : Match}
    (hm : m ∈ suggestion.offers input) :
    m.rest.byteLength ≤ input.byteLength :=
  leaves_of_mem_offers (fun rest input => rest.byteLength ≤ input.byteLength)
    (fun _ => Nat.le_refl _) (fun _ _ => Nat.le_add_left _ _)
    (fun _ hpropose _ _ hm => byteLength_rest_le_of_mem_functions hpropose hm) hm

/-- Whatever the suggestion proposes leaves an end of the input. -/
def LeavesEnds (suggestion : Suggestion) : Prop :=
  ∀ input, ∀ m ∈ suggestion.offers input, m.rest <:+ input

/-- A suggestion leaves ends of its inputs if its functions do. -/
theorem leavesEnds_of_functions
    {suggestion : Suggestion}
    (hfunctions : ∀ propose ∈ suggestion.functions, ∀ input, ∀ m ∈ propose input,
      m.rest <:+ input) :
    suggestion.LeavesEnds := fun _ _ hm =>
  leaves_of_mem_offers (· <:+ ·) (fun _ => List.suffix_rfl) List.suffix_cons hfunctions hm

/-- What is put together from the ready-made suggestions leaves ends of its
inputs. -/
theorem leavesEnds_of_functions_eq_nil
    {suggestion : Suggestion} (hfunctions : suggestion.functions = []) :
    suggestion.LeavesEnds :=
  leavesEnds_of_functions (by simp [hfunctions])

end Suggestion
end GrammarRepair
