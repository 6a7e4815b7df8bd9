import GrammarRepair.Proofs.Subdomain.Repairs

/-!
# Every input has a repair

An input may hold anything: runs of dots, dots at its ends, digits and hyphens
in front, characters of several bytes, or nothing at all.  Some repair is still
short enough, since a name can take the characters of an input one for one, each
for a single byte.  A label takes its first character whatever it is, and then
everything up to the next dot.  That dot separates two labels if something
stands behind it; a dot at the very end is the last character of the label.  Only
the empty input needs an insertion.
-/

namespace GrammarRepair.Subdomain

open CharacterClass

/-! ## Characters that become one byte -/

theorem utf8Size_of_contains
    {span : CharRange} {c : Char} (hspan : span.high ≤ '\x7f') (hc : span.contains c = true) :
    c.utf8Size = 1 := by
  have hhigh := ((CharRange.contains_iff span c).mp hc).2
  exact Char.utf8Size_eq_one_iff.mpr (Char.le_trans hhigh hspan)

theorem utf8Size_of_isAlphanum {c : Char} (hc : c.isAlphanum = true) : c.utf8Size = 1 := by
  rcases Bool.or_eq_true_iff.mp hc with hletter | hdigit
  · rcases Bool.or_eq_true_iff.mp hletter with hupper | hlower
    · rw [← contains_upperLetters] at hupper
      exact utf8Size_of_contains (by decide) hupper
    · rw [← contains_lowerLetters] at hlower
      exact utf8Size_of_contains (by decide) hlower
  · have hcontains : digits.contains c = true := hdigit
    exact utf8Size_of_contains (by decide) hcontains

/-- An interior character other than the dot can become a single byte. -/
theorem exists_mem_interiorTexts {c : Char} (hc : c ≠ '.') :
    ∃ piece ∈ interiorTexts c, Text.byteLength piece = 1 := by
  by_cases hclass : isInterior c = true
  · refine ⟨[c], ?_, ?_⟩
    · rw [interiorTexts, if_pos hclass]
      exact List.mem_singleton_self [c]
    · rcases isInterior_iff.mp hclass with halphanum | rfl
      · rw [Text.byteLength_cons, utf8Size_of_isAlphanum halphanum, Text.byteLength_nil]
      · decide
  · refine ⟨['-'], ?_, by decide⟩
    rw [interiorTexts, if_neg hclass]
    by_cases hat : c = '@'
    · rw [if_pos hat]
      decide
    · rw [if_neg hat, if_neg hc]
      exact List.mem_singleton_self _

theorem exists_rewrites_interiorTexts {source : Text} (hdot : '.' ∉ source) :
    ∃ text, Rewrites interiorTexts source text ∧ Text.byteLength text = source.length := by
  induction source with
  | nil => exact ⟨[], .nil, rfl⟩
  | cons c source ih =>
      rw [List.mem_cons, not_or] at hdot
      obtain ⟨piece, hpiece, hsize⟩ := exists_mem_interiorTexts (Ne.symm hdot.1)
      obtain ⟨text, htext, hlength⟩ := ih hdot.2
      refine ⟨piece ++ text, .cons hpiece htext, ?_⟩
      rw [Text.byteLength_append, hsize, hlength, List.length_cons, Nat.add_comm]

/-- A label can take any character for its first one. -/
theorem exists_begins_cons (c : Char) (rest : Text) : ∃ first, Begins (c :: rest) first rest := by
  by_cases hc : c.isAlpha = true
  · exact ⟨c, .letter hc⟩
  · exact ⟨'x', .replace (by simpa using hc)⟩

theorem Begins.utf8Size_eq {input rest : Text} {first : Char} (h : Begins input first rest) :
    first.utf8Size = 1 :=
  utf8Size_of_isAlphanum (isAlphanum_of_isAlpha h.isAlpha)

/-! ## Labels and names of one byte for each character -/

theorem exists_labelMatch_long (c last : Char) {interior : Text} (hdot : '.' ∉ interior)
    (later : Text) :
    ∃ text, LabelMatch (c :: (interior ++ last :: later)) ⟨text, later⟩ ∧
      Text.byteLength text = interior.length + 2 := by
  obtain ⟨first, hfirst⟩ := exists_begins_cons c (interior ++ last :: later)
  obtain ⟨text, htext, hlength⟩ := exists_rewrites_interiorTexts hdot
  refine ⟨first :: (text ++ [lastChar last]), .long hfirst htext, ?_⟩
  have hlast : (lastChar last).utf8Size = 1 := utf8Size_of_isAlphanum (lastChar_isAlphanum last)
  rw [Text.byteLength_cons, Text.byteLength_append, Text.byteLength_cons, Text.byteLength_nil,
    hfirst.utf8Size_eq, hlength, hlast]
  omega

/-- A label can take any character and everything behind it up to a dot. -/
theorem exists_labelMatch (c : Char) {label : Text} (hdot : '.' ∉ label) (later : Text) :
    ∃ text, LabelMatch (c :: (label ++ later)) ⟨text, later⟩ ∧
      Text.byteLength text = label.length + 1 := by
  rcases List.eq_nil_or_concat label with rfl | ⟨interior, last, rfl⟩
  · obtain ⟨first, hfirst⟩ := exists_begins_cons c later
    refine ⟨[first], .short hfirst, ?_⟩
    rw [Text.byteLength_cons, hfirst.utf8Size_eq]
    rfl
  · rw [List.concat_eq_append] at hdot ⊢
    have hinterior : '.' ∉ interior := fun h => hdot (List.mem_append_left _ h)
    obtain ⟨text, htext, hlength⟩ := exists_labelMatch_long c last hinterior later
    refine ⟨text, ?_, ?_⟩
    · rwa [List.append_assoc]
    · rw [hlength, List.length_append, List.length_singleton]

/-- A name matches all of the input and has one byte for each of its
characters. -/
def HasEvenName (input : Text) : Prop :=
  ∃ text, NameMatch input ⟨text, []⟩ ∧ Text.byteLength text = input.length

/-- A dot behind a label separates it from what follows, or ends it. -/
theorem hasEvenName_dotted
    (c : Char) {label later : Text} (hdot : '.' ∉ label) (hlater : later ≠ [] → HasEvenName later) :
    HasEvenName (c :: (label ++ '.' :: later)) := by
  by_cases hempty : later = []
  · subst hempty
    obtain ⟨text, htext, hlength⟩ := exists_labelMatch_long c '.' hdot []
    refine ⟨text, .single htext, ?_⟩
    rw [hlength, List.length_cons, List.length_append, List.length_singleton]
  · obtain ⟨text, htext, hlength⟩ := exists_labelMatch c hdot ('.' :: later)
    obtain ⟨rest, hrest, hrestLength⟩ := hlater hempty
    refine ⟨text ++ '.' :: rest, .dotted htext hrest, ?_⟩
    have hsign : ('.' : Char).utf8Size = 1 := by decide
    rw [Text.byteLength_append, Text.byteLength_cons, hlength, hrestLength, hsign,
      List.length_cons, List.length_append, List.length_cons]
    omega

/-- The induction also speaks of the text behind one more character, because a
label may begin with a dot. -/
theorem hasEvenName_and_cons (input : Text) :
    (input ≠ [] → HasEvenName input) ∧ ∀ c, HasEvenName (c :: input) := by
  induction input using induction_on_dots with
  | single label hdot =>
      have hcons (c : Char) {later : Text} (hlater : '.' ∉ later) : HasEvenName (c :: later) := by
        obtain ⟨text, htext, hlength⟩ := exists_labelMatch c hlater []
        rw [List.append_nil] at htext
        exact ⟨text, .single htext, hlength⟩
      refine ⟨fun hne => ?_, fun c => hcons c hdot⟩
      obtain ⟨c, later, rfl⟩ := List.exists_cons_of_ne_nil hne
      exact hcons c fun h => hdot (List.mem_cons_of_mem c h)
  | dotted label later hdot ih =>
      refine ⟨fun _ => ?_, fun c => hasEvenName_dotted c hdot ih.1⟩
      cases label with
      | nil => exact ih.2 '.'
      | cons c label =>
          exact hasEvenName_dotted c (fun h => hdot (List.mem_cons_of_mem c h)) ih.1

/-! ## The repairs -/

theorem length_le_byteLength (text : Text) : text.length ≤ Text.byteLength text := by
  induction text with
  | nil => exact Nat.le_refl 0
  | cons c rest ih =>
      have hsize := Char.utf8Size_pos c
      rw [Text.byteLength_cons, List.length_cons]
      omega

/-- Some name matches all of a text and, the empty text aside, is no longer. -/
theorem exists_nameMatch_byteLength_le (input : Text) :
    ∃ text, NameMatch input ⟨text, []⟩ ∧ Text.byteLength text ≤ max 1 (Text.byteLength input) := by
  by_cases hempty : input = []
  · subst hempty
    exact ⟨['x'], .single (.short (.insert (by simp))), by decide⟩
  · obtain ⟨text, htext, hlength⟩ := (hasEvenName_and_cons input).1 hempty
    refine ⟨text, htext, ?_⟩
    rw [hlength]
    exact Nat.le_trans (length_le_byteLength input) (Nat.le_max_right _ _)

/-- Whatever the input, there is a repair, with the grammar of the rule or with
any other; and one of them is no longer than the part of the input that the
ceiling leaves, or a single character. -/
theorem exists_mem_repairs (supply : NameSupply) :
    ∃ grammar rule, Subdomain.grammar supply = .ok (grammar, rule) ∧
      ∀ (others : Grammar) (input : Text),
        grammar.repairs rule input ≠ [] ∧
        ∃ text ∈ others.repairs rule input, Text.byteLength text ≤ 63 ∧
          Text.byteLength text ≤ max 1 (Text.byteLength (Text.truncate 63 input)) := by
  obtain ⟨grammar, run, hgrammar⟩ := exists_grammar_eq_ok supply
  have hrepair (others : Grammar) (input : Text) :
      ∃ text ∈ others.repairs (nameRule run) input, Text.byteLength text ≤ 63 ∧
        Text.byteLength text ≤ max 1 (Text.byteLength (Text.truncate 63 input)) := by
    obtain ⟨text, htext, hlength⟩ := exists_nameMatch_byteLength_le (Text.truncate 63 input)
    have hcut : Text.byteLength (Text.truncate 63 input) ≤ 63 :=
      Text.byteLength_truncate_le 63 input
    have hfits : Text.byteLength text ≤ 63 := by omega
    exact ⟨text, mem_repairs_nameRule_iff.mpr ⟨htext, hfits⟩, hfits, hlength⟩
  refine ⟨grammar, nameRule run, hgrammar, fun others input => ⟨?_, hrepair others input⟩⟩
  obtain ⟨text, htext, -⟩ := hrepair grammar input
  exact List.ne_nil_of_mem htext

end GrammarRepair.Subdomain
