import GrammarRepair.Proofs.CharacterClass

/-!
# Names and their labels

A name is a row of labels with a dot between neighbours.  The labels of any text
are what stands between its dots, so facts about names go by induction on the
dots: a text is one label, or a label, a dot and a text with fewer dots.
-/

namespace GrammarRepair.Subdomain

open CharacterClass

/-- What stands between the dots of a text. -/
def labels (text : Text) : List Text :=
  text.splitOn '.'

/-- The label begins with a letter and ends with a letter or digit. -/
structure HasEdges (label : Text) : Prop where
  first : ∃ c ∈ label.head?, c.isAlpha = true
  last : ∃ c ∈ label.getLast?, c.isAlphanum = true

/-- A letter, optionally followed by letters, digits and hyphens up to a letter
or digit. -/
structure IsLabel (label : Text) : Prop extends HasEdges label where
  interior : ∀ c ∈ label, c.isAlphanum = true ∨ c = '-'

/-- One or more labels, joined by single dots. -/
def IsSubdomain (text : Text) : Prop :=
  ∀ label ∈ labels text, IsLabel label

/-! ## Labels of a text -/

theorem labels_of_not_mem {label : Text} (hdot : '.' ∉ label) : labels label = [label] :=
  List.splitOn_eq_singleton hdot

theorem labels_append {label : Text} (hdot : '.' ∉ label) (text : Text) :
    labels (label ++ '.' :: text) = label :: labels text :=
  List.splitOn_append_cons_self_of_not_mem hdot text

theorem labels_ne_nil (text : Text) : labels text ≠ [] :=
  List.splitOn_ne_nil '.' text

/-- Induction on the dots of a text. -/
theorem induction_on_dots
    {motive : Text → Prop} (single : ∀ label, '.' ∉ label → motive label)
    (dotted : ∀ label text, '.' ∉ label → motive text → motive (label ++ '.' :: text))
    (text : Text) :
    motive text := by
  by_cases hdot : '.' ∈ text
  · obtain ⟨label, later, hsplit, hlabel⟩ := List.eq_append_cons_of_mem hdot
    have hlength : later.length < text.length := by
      rw [hsplit, List.length_append, List.length_cons]
      omega
    rw [hsplit]
    exact dotted label later hlabel (induction_on_dots single dotted later)
  · exact single text hdot
termination_by text.length

/-! ## Shapes of labels -/

theorem isAlphanum_of_isAlpha {c : Char} (hc : c.isAlpha = true) : c.isAlphanum = true :=
  Bool.or_eq_true_iff.mpr (.inl hc)

theorem HasEdges.isAlpha_head {c : Char} {rest : Text} (h : HasEdges (c :: rest)) :
    c.isAlpha = true := by
  obtain ⟨first, hhead, hfirst⟩ := h.first
  rwa [← Option.some.inj hhead] at hfirst

theorem HasEdges.isAlphanum_last
    {first last : Char} {interior : Text} (h : HasEdges (first :: (interior ++ [last]))) :
    last.isAlphanum = true := by
  obtain ⟨c, hlast, hc⟩ := h.last
  obtain rfl : last = c := by simpa [List.getLast?_cons] using hlast
  exact hc

/-- A label with edges is a single letter, or has a first and a last character. -/
theorem HasEdges.cases {label : Text} (h : HasEdges label) :
    (∃ c, label = [c]) ∨ ∃ first interior last, label = first :: (interior ++ [last]) := by
  cases label with
  | nil =>
      obtain ⟨c, hhead, -⟩ := h.first
      cases hhead
  | cons c rest =>
      rcases List.eq_nil_or_concat rest with rfl | ⟨interior, last, rfl⟩
      · exact .inl ⟨c, rfl⟩
      · exact .inr ⟨c, interior, last, by rw [List.concat_eq_append]⟩

theorem isLabel_singleton {c : Char} (hc : c.isAlpha = true) : IsLabel [c] where
  first := ⟨c, rfl, hc⟩
  last := ⟨c, rfl, isAlphanum_of_isAlpha hc⟩
  interior := by
    intro d hd
    rw [List.mem_singleton.mp hd]
    exact .inl (isAlphanum_of_isAlpha hc)

theorem isLabel_edges
    {first last : Char} {interior : Text} (hfirst : first.isAlpha = true)
    (hlast : last.isAlphanum = true) (hinterior : ∀ c ∈ interior, c.isAlphanum = true ∨ c = '-') :
    IsLabel (first :: (interior ++ [last])) where
  first := ⟨first, rfl, hfirst⟩
  last := ⟨last, by simp [List.getLast?_cons], hlast⟩
  interior := by
    intro c hc
    rcases List.mem_cons.mp hc with rfl | hc
    · exact .inl (isAlphanum_of_isAlpha hfirst)
    · rcases List.mem_append.mp hc with hc | hc
      · exact hinterior c hc
      · rw [List.mem_singleton.mp hc]
        exact .inl hlast

theorem IsLabel.not_mem_dot {label : Text} (h : IsLabel label) : '.' ∉ label := by
  intro hdot
  rcases h.interior '.' hdot with hclass | heq
  · exact absurd hclass (by decide)
  · exact absurd heq (by decide)

theorem IsLabel.isSubdomain {label : Text} (h : IsLabel label) : IsSubdomain label := by
  rw [IsSubdomain, labels_of_not_mem h.not_mem_dot]
  intro other hother
  rwa [List.mem_singleton.mp hother]

theorem IsLabel.isSubdomain_dotted
    {label text : Text} (hlabel : IsLabel label) (htext : IsSubdomain text) :
    IsSubdomain (label ++ '.' :: text) := by
  rw [IsSubdomain, labels_append hlabel.not_mem_dot]
  exact List.forall_mem_cons.mpr ⟨hlabel, htext⟩

theorem IsSubdomain.ne_nil {text : Text} (h : IsSubdomain text) : text ≠ [] := by
  rintro rfl
  obtain ⟨c, hc, -⟩ := (h [] (List.mem_singleton_self [])).first
  cases hc

end GrammarRepair.Subdomain
