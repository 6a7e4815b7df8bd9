import GrammarRepair.Proofs.Subdomain.Matching
import GrammarRepair.Proofs.Subdomain.Name

/-!
# Matches of inputs with edges

Where the labels of an input begin with a letter and end with a letter or digit,
the names that match all of it are known: dots, first and last characters stay,
and every interior character is repaired on its own.

The first character is a letter, so nothing is put in front of it.  A label that
ends early leaves a character that is not a dot, and one that takes a dot for
its last character leaves the first letter of the next label; neither way leads
to the end of the input.
-/

namespace GrammarRepair.Subdomain

open CharacterClass

/-- The label keeps its first and last character, and those between are
repaired, each on its own. -/
inductive RepairsLabel : Text → Text → Prop
  | single (c : Char) : RepairsLabel [c] [c]
  | edges {interior text : Text} (first last : Char)
      (hinterior : Rewrites interiorTexts interior text) :
      RepairsLabel (first :: (interior ++ [last])) (first :: (text ++ [last]))

/-- The dots are kept and the labels are repaired, each on its own. -/
def RepairsName (input text : Text) : Prop :=
  ∃ pieces, List.Forall₂ RepairsLabel (labels input) pieces ∧ text = ['.'].intercalate pieces

/-! ## Labels with edges -/

theorem not_mem_dot_of_rewrites {source text : Text} (h : Rewrites interiorTexts source text) :
    '.' ∉ source := by
  induction h with
  | nil => exact List.not_mem_nil
  | @cons c source piece text hpiece _ ih =>
      intro hdot
      rcases List.mem_cons.mp hdot with rfl | hdot
      · have hnone : interiorTexts '.' = [] := by decide
        rw [hnone] at hpiece
        cases hpiece
      · exact ih hdot

/-- Nothing is left, or a dot comes next. -/
def AtBoundary (rest : Text) : Prop :=
  rest = [] ∨ ∃ more, rest = '.' :: more

/-- Nothing, or a dot with something behind it that is no dot. -/
def Continues (later : Text) : Prop :=
  later = [] ∨ ∃ c more, later = '.' :: c :: more ∧ c ≠ '.'

theorem AtBoundary.eq_nil
    {tail later : Text} (h : AtBoundary (tail ++ later)) (hdot : '.' ∉ tail) : tail = [] := by
  cases tail with
  | nil => rfl
  | cons c tail =>
      rcases h with h | ⟨more, h⟩
      · cases h
      · obtain ⟨rfl, -⟩ := List.cons.inj h
        exact absurd List.mem_cons_self hdot

/-- A label that takes the next dot does not come to a boundary. -/
theorem Continues.not_atBoundary
    {before rest : Text} {last : Char} (h : Continues (before ++ last :: rest))
    (hdot : '.' ∉ before) :
    ¬AtBoundary rest := by
  intro hrest
  rcases h with h | ⟨c, more, h, hc⟩
  · exact absurd (List.append_eq_nil_iff.mp h).2 (List.cons_ne_nil _ _)
  · cases before with
    | nil =>
        obtain ⟨-, rfl⟩ := List.cons.inj h
        rcases hrest with hrest | ⟨more, hrest⟩
        · cases hrest
        · exact hc (List.cons.inj hrest).1
    | cons d before =>
        obtain ⟨rfl, -⟩ := List.cons.inj h
        exact hdot List.mem_cons_self

/-- A label with edges is matched as a whole, or its match comes to no
boundary. -/
theorem labelMatch_append_iff
    {label later text rest : Text} (hedges : HasEdges label) (hdot : '.' ∉ label)
    (hlater : Continues later) (hrest : AtBoundary rest) :
    LabelMatch (label ++ later) ⟨text, rest⟩ ↔ rest = later ∧ RepairsLabel label text := by
  constructor
  · intro h
    obtain ⟨c, hhead, hc⟩ := hedges.first
    obtain ⟨tail, rfl⟩ := List.head?_eq_some_iff.mp hhead
    have htail : '.' ∉ tail := fun h => hdot (List.mem_cons_of_mem c h)
    cases h with
    | short hfirst =>
        obtain ⟨rfl, rfl⟩ := (begins_cons_iff hc).mp hfirst
        obtain rfl := hrest.eq_nil htail
        exact ⟨rfl, .single _⟩
    | @long source interior rest first last hfirst hinterior =>
        obtain ⟨rfl, hsplit⟩ := (begins_cons_iff hc).mp hfirst
        have hsource := not_mem_dot_of_rewrites hinterior
        rcases List.append_eq_append_iff.mp hsplit with ⟨left, rfl, hbehind⟩ | ⟨before, rfl, rfl⟩
        · -- the interior ends inside the label
          cases left with
          | nil =>
              have hcontinues : Continues ([] ++ last :: rest) := by rwa [hbehind]
              exact absurd hrest (hcontinues.not_atBoundary List.not_mem_nil)
          | cons d left =>
              obtain ⟨rfl, rfl⟩ := List.cons.inj hbehind
              have hleft : '.' ∉ left := fun h =>
                htail (List.mem_append_right _ (List.mem_cons_of_mem _ h))
              obtain rfl := hrest.eq_nil hleft
              refine ⟨rfl, ?_⟩
              rw [lastChar_of_isAlphanum hedges.isAlphanum_last]
              exact .edges _ _ hinterior
        · -- the interior takes the whole label
          have hbefore : '.' ∉ before := fun h => hsource (List.mem_append_right _ h)
          exact absurd hrest (hlater.not_atBoundary hbefore)
  · rintro ⟨rfl, hrepairs⟩
    cases hrepairs with
    | single c => exact .short (.letter hedges.isAlpha_head)
    | @edges interior text first last hinterior =>
        have hfirst : Begins (first :: (interior ++ [last]) ++ rest) first
            (interior ++ last :: rest) := by
          rw [List.cons_append, List.append_assoc]
          exact .letter hedges.isAlpha_head
        have hmatch := LabelMatch.long hfirst hinterior
        rwa [lastChar_of_isAlphanum hedges.isAlphanum_last] at hmatch

/-! ## Names whose labels have edges -/

theorem repairsName_of_not_mem
    {label text : Text} (hdot : '.' ∉ label) :
    RepairsName label text ↔ RepairsLabel label text := by
  rw [RepairsName, labels_of_not_mem hdot]
  constructor
  · rintro ⟨pieces, hpieces, rfl⟩
    obtain _ | ⟨hpiece, hnil⟩ := hpieces
    cases hnil
    rwa [List.intercalate_singleton]
  · intro h
    exact ⟨[text], .cons h .nil, List.intercalate_singleton.symm⟩

theorem repairsName_append_iff
    {label later text : Text} (hdot : '.' ∉ label) :
    RepairsName (label ++ '.' :: later) text ↔
      ∃ piece rest, RepairsLabel label piece ∧ RepairsName later rest ∧
        text = piece ++ '.' :: rest := by
  have hjoin {piece : Text} {pieces : List Text}
      (hpieces : List.Forall₂ RepairsLabel (labels later) pieces) :
      ['.'].intercalate (piece :: pieces) = piece ++ '.' :: ['.'].intercalate pieces := by
    have hne : pieces ≠ [] := by
      rintro rfl
      exact labels_ne_nil later (List.forall₂_nil_right_iff.mp hpieces)
    rw [List.intercalate_cons_of_ne_nil hne, List.append_assoc, List.singleton_append]
  rw [RepairsName, labels_append hdot]
  constructor
  · rintro ⟨pieces, hpieces, rfl⟩
    obtain _ | ⟨hpiece, hlater⟩ := hpieces
    exact ⟨_, _, hpiece, ⟨_, hlater, rfl⟩, hjoin hlater⟩
  · rintro ⟨piece, rest, hpiece, ⟨pieces, hpieces, rfl⟩, rfl⟩
    exact ⟨piece :: pieces, .cons hpiece hpieces, (hjoin hpieces).symm⟩

/-- A text whose labels have edges does not begin with a dot. -/
theorem continues_dot_of_hasEdges
    {text : Text} (hedges : ∀ label ∈ labels text, HasEdges label) : Continues ('.' :: text) := by
  have hempty : [] ∉ labels text := by
    intro hmem
    obtain ⟨c, hhead, -⟩ := (hedges [] hmem).first
    cases hhead
  cases text with
  | nil => exact absurd (List.mem_singleton_self []) hempty
  | cons c more =>
      refine .inr ⟨c, more, rfl, ?_⟩
      rintro rfl
      rw [← List.nil_append ('.' :: more), labels_append List.not_mem_nil] at hempty
      exact hempty List.mem_cons_self

/-- Where all labels have edges, the names that match all of the input are its
repairs. -/
theorem nameMatch_iff_repairsName
    {input text : Text} (hedges : ∀ label ∈ labels input, HasEdges label) :
    NameMatch input ⟨text, []⟩ ↔ RepairsName input text := by
  induction input using induction_on_dots generalizing text with
  | single label hdot =>
      have hlabel : HasEdges label := hedges label (by simp [labels_of_not_mem hdot])
      have hmatch {text rest : Text} (hrest : AtBoundary rest) :
          LabelMatch label ⟨text, rest⟩ ↔ rest = [] ∧ RepairsLabel label text := by
        have h : LabelMatch (label ++ []) ⟨text, rest⟩ ↔ rest = [] ∧ RepairsLabel label text :=
          labelMatch_append_iff hlabel hdot (.inl rfl) hrest
        rwa [List.append_nil] at h
      rw [repairsName_of_not_mem hdot]
      constructor
      · intro h
        cases h with
        | single h => exact ((hmatch (.inl rfl)).mp h).2
        | dotted h _ =>
            have hnil := ((hmatch (.inr ⟨_, rfl⟩)).mp h).1
            cases hnil
      · intro h
        exact .single ((hmatch (.inl rfl)).mpr ⟨rfl, h⟩)
  | dotted label later hdot ih =>
      rw [labels_append hdot] at hedges
      have hlabel := hedges label List.mem_cons_self
      have hlater : ∀ label ∈ labels later, HasEdges label :=
        fun other h => hedges other (List.mem_cons_of_mem _ h)
      have hcontinues := continues_dot_of_hasEdges hlater
      rw [repairsName_append_iff hdot]
      constructor
      · intro h
        cases h with
        | single h =>
            have hnil := ((labelMatch_append_iff hlabel hdot hcontinues (.inl rfl)).mp h).1
            cases hnil
        | dotted h hname =>
            obtain ⟨heq, hrepairs⟩ :=
              (labelMatch_append_iff hlabel hdot hcontinues (.inr ⟨_, rfl⟩)).mp h
            obtain ⟨-, rfl⟩ := List.cons.inj heq
            exact ⟨_, _, hrepairs, (ih hlater).mp hname, rfl⟩
      · rintro ⟨piece, rest, hpiece, hrest, rfl⟩
        refine .dotted ?_ ((ih hlater).mpr hrest)
        exact (labelMatch_append_iff hlabel hdot hcontinues (.inr ⟨_, rfl⟩)).mpr ⟨rfl, hpiece⟩

/-! ## Valid names -/

theorem rewrites_iff_eq
    {source text : Text} (hsource : ∀ c ∈ source, isInterior c = true) :
    Rewrites interiorTexts source text ↔ text = source := by
  induction source generalizing text with
  | nil =>
      constructor
      · intro h
        cases h
        rfl
      · rintro rfl
        exact .nil
  | cons c source ih =>
      have hoptions : interiorTexts c = [[c]] := if_pos (hsource c List.mem_cons_self)
      have hlater (rest : Text) : Rewrites interiorTexts source rest ↔ rest = source :=
        ih fun d hd => hsource d (List.mem_cons_of_mem _ hd)
      constructor
      · intro h
        obtain _ | ⟨hpiece, hrest⟩ := h
        rw [hoptions, List.mem_singleton] at hpiece
        rw [hpiece, (hlater _).mp hrest, List.singleton_append]
      · rintro rfl
        have hpiece : [c] ∈ interiorTexts c := by
          rw [hoptions]
          exact List.mem_singleton_self [c]
        exact .cons hpiece ((hlater source).mpr rfl)

/-- A valid label is its own and only repair. -/
theorem repairsLabel_iff_eq {label text : Text} (hlabel : IsLabel label) :
    RepairsLabel label text ↔ text = label := by
  constructor
  · intro h
    cases h with
    | single c => rfl
    | @edges interior text first last hinterior =>
        have hclass : ∀ c ∈ interior, isInterior c = true := by
          intro c hc
          exact isInterior_iff.mpr (hlabel.interior c (by simp [hc]))
        rw [(rewrites_iff_eq hclass).mp hinterior]
  · rintro rfl
    rcases hlabel.cases with ⟨c, rfl⟩ | ⟨first, interior, last, rfl⟩
    · exact .single c
    · refine .edges first last ((rewrites_iff_eq fun c hc => ?_).mpr rfl)
      exact isInterior_iff.mpr (hlabel.interior c (by simp [hc]))

/-- A valid name is its own and only repair. -/
theorem repairsName_iff_eq
    {input text : Text} (hinput : IsSubdomain input) : RepairsName input text ↔ text = input := by
  induction input using induction_on_dots generalizing text with
  | single label hdot =>
      rw [repairsName_of_not_mem hdot]
      exact repairsLabel_iff_eq (hinput label (by simp [labels_of_not_mem hdot]))
  | dotted label later hdot ih =>
      rw [IsSubdomain, labels_append hdot, List.forall_mem_cons] at hinput
      rw [repairsName_append_iff hdot]
      constructor
      · rintro ⟨piece, rest, hpiece, hrest, rfl⟩
        rw [(repairsLabel_iff_eq hinput.1).mp hpiece, (ih hinput.2).mp hrest]
      · rintro rfl
        exact ⟨label, later, (repairsLabel_iff_eq hinput.1).mpr rfl, (ih hinput.2).mpr rfl, rfl⟩

end GrammarRepair.Subdomain
