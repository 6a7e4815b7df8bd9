import GrammarRepair.Source.Reader
import Mathlib.Data.List.Induction

/-!
# Places and byte offsets

A byte offset of a source that splits no character has a place, and the place
tells the offset.  Later offsets have later places, and whoever counts off the
line feeds and then the characters that a place speaks of comes back to its
offset.  Both follow from what the text in front of a place looks like: so many
lines, each ended by its line feed, and as much of the line that is still open.
-/

namespace GrammarRepair

namespace Text

/-! ## Byte offsets of a text -/

/-- A byte offset of a text that splits no character of it. -/
def IsBoundary (text : Text) (offset : Nat) : Prop :=
  ∃ front : Text, front <+: text ∧ front.byteLength = offset

/-- What follows so many bytes of a text, if these are whole characters. -/
def behindBytes? : Nat → Text → Option Text
  | 0, text => some text
  | _ + 1, [] => none
  | bytes + 1, c :: text =>
      if c.utf8Size ≤ bytes + 1 then behindBytes? (bytes + 1 - c.utf8Size) text else none

theorem behindBytes?_append (front rest : Text) :
    behindBytes? front.byteLength (front ++ rest) = some rest := by
  induction front with
  | nil => simp [behindBytes?]
  | cons c front ih =>
      obtain ⟨size, hsize⟩ : ∃ size, c.utf8Size = size + 1 :=
        Nat.exists_eq_add_one.mpr (Char.utf8Size_pos c)
      have hbytes : c.utf8Size + byteLength front = size + byteLength front + 1 := by omega
      rw [byteLength_cons, List.cons_append, hbytes, behindBytes?, ← hbytes,
        if_pos (Nat.le_add_right _ _), Nat.add_sub_cancel_left, ih]

/-! ## Counting off lines and columns -/

/-- What follows so many line feeds of a text. -/
def behindFeeds? : Nat → Text → Option Text
  | 0, text => some text
  | _ + 1, [] => none
  | feeds + 1, c :: text =>
      if c = '\n' then behindFeeds? feeds text else behindFeeds? (feeds + 1) text

/-- What follows so many characters of a text, if none of them is a line feed. -/
def behindColumns? : Nat → Text → Option Text
  | 0, text => some text
  | _ + 1, [] => none
  | columns + 1, c :: text => if c = '\n' then none else behindColumns? columns text

/-- Lines, each with the line feed that ends it. -/
def ended (lines : List Text) : Text :=
  lines.flatMap (· ++ ['\n'])

theorem ended_cons (line : Text) (lines : List Text) :
    ended (line :: lines) = line ++ '\n' :: ended lines := by
  simp [ended]

/-- A text is made of ended lines and of one that is open. -/
theorem exists_eq_ended_append (text : Text) :
    ∃ (lines : List Text) (last : Text),
      text = ended lines ++ last ∧ (∀ line ∈ lines, '\n' ∉ line) ∧ '\n' ∉ last := by
  induction text using List.reverseRecOn with
  | nil => exact ⟨[], [], rfl, by simp, by simp⟩
  | append_singleton text c ih =>
      obtain ⟨lines, last, rfl, hlines, hlast⟩ := ih
      by_cases hc : c = '\n'
      · refine ⟨lines ++ [last], [], by simp [ended, hc], ?_, by simp⟩
        simpa [or_imp, forall_and] using ⟨hlines, hlast⟩
      · exact ⟨lines, last ++ [c], by simp, hlines, by simpa [Ne.symm hc] using hlast⟩

theorem behindFeeds?_line_append {line : Text} (hline : '\n' ∉ line) (feeds : Nat) (text : Text) :
    behindFeeds? (feeds + 1) (line ++ '\n' :: text) = behindFeeds? feeds text := by
  induction line with
  | nil => simp [behindFeeds?]
  | cons c line ih =>
      obtain ⟨hc, hline⟩ := List.ne_and_not_mem_of_not_mem_cons hline
      rw [List.cons_append, behindFeeds?, if_neg (Ne.symm hc), ih hline]

theorem behindFeeds?_ended_append
    {lines : List Text} (hlines : ∀ line ∈ lines, '\n' ∉ line) (rest : Text) :
    behindFeeds? lines.length (ended lines ++ rest) = some rest := by
  induction lines with
  | nil => simp [ended, behindFeeds?]
  | cons line lines ih =>
      obtain ⟨hline, hlines⟩ := List.forall_mem_cons.mp hlines
      rw [ended_cons, List.append_assoc, List.cons_append, List.length_cons,
        behindFeeds?_line_append hline, ih hlines]

theorem behindColumns?_append {line : Text} (hline : '\n' ∉ line) (rest : Text) :
    behindColumns? line.length (line ++ rest) = some rest := by
  induction line with
  | nil => simp [behindColumns?]
  | cons c line ih =>
      obtain ⟨hc, hline⟩ := List.ne_and_not_mem_of_not_mem_cons hline
      rw [List.cons_append, List.length_cons, behindColumns?, if_neg (Ne.symm hc), ih hline]

/-- Only ended lines are counted off. -/
theorem exists_ended_of_behindFeeds? {feeds : Nat} {text rest : Text}
    (h : behindFeeds? feeds text = some rest) :
    ∃ lines : List Text, lines.length = feeds ∧ (∀ line ∈ lines, '\n' ∉ line) ∧
      text = ended lines ++ rest := by
  fun_induction behindFeeds? feeds text with
  | case1 text => exact ⟨[], rfl, by simp, Option.some.inj h⟩
  | case2 feeds => cases h
  | case3 feeds text ih =>
      obtain ⟨lines, hfeeds, hlines, rfl⟩ := ih h
      exact ⟨[] :: lines, by simp [hfeeds], by simpa using hlines, by simp [ended_cons]⟩
  | case4 feeds c text hc ih =>
      obtain ⟨lines, hfeeds, hlines, rfl⟩ := ih h
      -- The character belongs to the first of the lines, and there is one.
      obtain ⟨line, lines, rfl⟩ := List.exists_cons_of_length_eq_add_one hfeeds
      obtain ⟨hline, hlines⟩ := List.forall_mem_cons.mp hlines
      refine ⟨(c :: line) :: lines, by simpa using hfeeds, ?_, by simp [ended_cons]⟩
      simpa [Ne.symm hc, hline] using hlines

theorem exists_of_behindColumns? {columns : Nat} {text rest : Text}
    (h : behindColumns? columns text = some rest) :
    ∃ line : Text, line.length = columns ∧ '\n' ∉ line ∧ text = line ++ rest := by
  fun_induction behindColumns? columns text with
  | case1 text => exact ⟨[], rfl, by simp, Option.some.inj h⟩
  | case2 columns => cases h
  | case3 columns text => cases h
  | case4 columns c text hc ih =>
      obtain ⟨line, hcolumns, hline, rfl⟩ := ih h
      exact ⟨c :: line, by simp [hcolumns], by simp [Ne.symm hc, hline], rfl⟩

end Text

namespace Source.Position

open Text

/-- The place at a byte offset of a source.  An offset that splits a character or
lies behind the end counts as the end. -/
def atOffset (source : Text) (offset : Nat) : Position :=
  before source ((behindBytes? offset source).getD [])

/-- What is left of a source behind the line feeds and the characters that a place
counts from one. -/
def restAt? (source : Text) : Position → Option Text
  | ⟨line + 1, column + 1⟩ => (behindFeeds? line source).bind (behindColumns? column)
  | _ => none

/-- The byte offset that a place of a source leads to. -/
def offsetOf? (source : Text) (position : Position) : Option Nat :=
  (restAt? source position).map fun rest => source.byteLength - rest.byteLength

theorem atOffset_append (consumed rest : Text) :
    atOffset (consumed ++ rest) consumed.byteLength = after consumed := by
  rw [atOffset, behindBytes?_append, Option.getD_some, before_append]

/-! ## Later offsets -/

theorem atOffset_lt_atOffset {source : Text} {first second : Nat}
    (hfirst : source.IsBoundary first) (hsecond : source.IsBoundary second)
    (h : first < second) : atOffset source first < atOffset source second := by
  obtain ⟨front, hfront, rfl⟩ := hfirst
  obtain ⟨longer, hlonger, rfl⟩ := hsecond
  obtain ⟨more, rfl⟩ | ⟨more, rfl⟩ := List.prefix_or_prefix_of_prefix hfront hlonger
  · obtain ⟨rest, rfl⟩ := hlonger
    have hmore : more ≠ [] := by
      rintro rfl
      simp at h
    rw [atOffset_append (front ++ more), List.append_assoc, atOffset_append]
    exact after_lt_after_append hmore
  · rw [byteLength_append] at h
    omega

/-! ## The place of ended lines and an open one -/

theorem foldl_advance_of_not_mem {line : Text} (hline : '\n' ∉ line) (position : Position) :
    line.foldl advance position = ⟨position.line, position.column + line.length⟩ := by
  induction line generalizing position with
  | nil => rfl
  | cons c line ih =>
      obtain ⟨hc, hline⟩ := List.ne_and_not_mem_of_not_mem_cons hline
      rw [List.foldl_cons, ih hline, advance, if_neg (Ne.symm hc), List.length_cons,
        Nat.add_assoc, Nat.add_comm 1]

theorem foldl_advance_ended
    {lines : List Text} (hlines : ∀ line ∈ lines, '\n' ∉ line) (line : Nat) :
    (ended lines).foldl advance ⟨line, 1⟩ = ⟨line + lines.length, 1⟩ := by
  induction lines generalizing line with
  | nil => rfl
  | cons first lines ih =>
      obtain ⟨hfirst, hlines⟩ := List.forall_mem_cons.mp hlines
      rw [ended_cons, List.foldl_append, foldl_advance_of_not_mem hfirst, List.foldl_cons,
        advance, if_pos rfl, ih hlines, List.length_cons, Nat.add_right_comm, Nat.add_assoc]

/-- The line counts the line feeds, and the column the characters behind the last
of them, both from one. -/
theorem after_ended_append {lines : List Text} {last : Text}
    (hlines : ∀ line ∈ lines, '\n' ∉ line) (hlast : '\n' ∉ last) :
    after (ended lines ++ last) = ⟨lines.length + 1, last.length + 1⟩ := by
  rw [after, List.foldl_append, start, foldl_advance_ended hlines,
    foldl_advance_of_not_mem hlast, Nat.add_comm 1, Nat.add_comm 1]

/-! ## Back to the offset -/

/-- A place leads to where it is the place of the text in front. -/
theorem restAt?_eq_some_iff {source rest : Text} {position : Position} :
    restAt? source position = some rest ↔
      ∃ consumed : Text, source = consumed ++ rest ∧ after consumed = position := by
  constructor
  · intro h
    unfold restAt? at h
    split at h
    · obtain ⟨behind, hbehind, hrest⟩ := Option.bind_eq_some_iff.mp h
      obtain ⟨lines, rfl, hlines, rfl⟩ := exists_ended_of_behindFeeds? hbehind
      obtain ⟨last, rfl, hlast, rfl⟩ := exists_of_behindColumns? hrest
      exact ⟨ended lines ++ last, by simp, after_ended_append hlines hlast⟩
    · cases h
  · rintro ⟨consumed, rfl, rfl⟩
    obtain ⟨lines, last, rfl, hlines, hlast⟩ := exists_eq_ended_append consumed
    rw [after_ended_append hlines hlast, restAt?, List.append_assoc,
      behindFeeds?_ended_append hlines, Option.bind_some, behindColumns?_append hlast]

theorem offsetOf?_eq_some_iff {source : Text} {position : Position} {offset : Nat} :
    offsetOf? source position = some offset ↔
      source.IsBoundary offset ∧ atOffset source offset = position := by
  rw [offsetOf?, Option.map_eq_some_iff]
  constructor
  · rintro ⟨rest, hrest, rfl⟩
    obtain ⟨consumed, rfl, rfl⟩ := restAt?_eq_some_iff.mp hrest
    rw [byteLength_append, Nat.add_sub_cancel]
    exact ⟨⟨consumed, List.prefix_append _ _, rfl⟩, atOffset_append consumed rest⟩
  · rintro ⟨⟨consumed, ⟨rest, rfl⟩, rfl⟩, rfl⟩
    refine ⟨rest, restAt?_eq_some_iff.mpr ⟨consumed, rfl, (atOffset_append _ _).symm⟩, ?_⟩
    rw [byteLength_append, Nat.add_sub_cancel]

/-! ## Places of syntax errors -/

theorem rest_suffix_of_readToEnd {source : Text} {failure : Stuck}
    (h : readToEnd source = .error failure) : failure.rest <:+ source := by
  have hkeeps := readDefinitions_keeps source
  rw [readToEnd] at h
  cases hread : readDefinitions source with
  | error stuck =>
      rw [hread] at h hkeeps
      obtain rfl := Except.error.inj h
      exact hkeeps
  | ok result =>
      rw [hread] at h hkeeps
      simp only [Except.bind] at h
      split at h
      · cases h
      · obtain rfl := Except.error.inj h
        exact (skipBlank_suffix result.2).trans hkeeps

theorem exists_atOffset_of_read {source : Text} {error : SyntaxError}
    (h : read source = .error error) :
    ∃ offset, source.IsBoundary offset ∧ atOffset source offset = error.position := by
  rw [read] at h
  cases hread : readToEnd source with
  | ok definitions =>
      rw [hread] at h
      cases h
  | error failure =>
      rw [hread] at h
      obtain rfl := Except.error.inj h
      obtain ⟨consumed, hsource⟩ := rest_suffix_of_readToEnd hread
      refine ⟨byteLength consumed, ⟨consumed, ⟨_, hsource⟩, rfl⟩, ?_⟩
      rw [← hsource, atOffset_append]
      exact (before_append consumed failure.rest).symm

/-- Line and column determine the byte offset.  A later offset has a later place;
counting off the line feeds and the characters of a place leads back to its offset,
and what is no place of the source leads nowhere.  The place of a syntax error is
the place of an offset. -/
theorem atOffset_lt_and_offsetOf?_atOffset (source : Text) :
    (∀ first second, source.IsBoundary first → source.IsBoundary second → first < second →
      atOffset source first < atOffset source second) ∧
    (∀ offset, source.IsBoundary offset →
      offsetOf? source (atOffset source offset) = some offset) ∧
    (∀ position offset, offsetOf? source position = some offset →
      source.IsBoundary offset ∧ atOffset source offset = position) ∧
    ∀ error, read source = .error error →
      ∃ offset, source.IsBoundary offset ∧ atOffset source offset = error.position := by
  refine ⟨fun _ _ => atOffset_lt_atOffset, fun offset hoffset => ?_, fun _ _ => ?_, fun _ => ?_⟩
  · exact offsetOf?_eq_some_iff.mpr ⟨hoffset, rfl⟩
  · exact offsetOf?_eq_some_iff.mp
  · exact exists_atOffset_of_read

/-- A character of two bytes in the first line, and a semicolon missing in the
second. -/
def accentedSource : Text :=
  "a = 'é'\n  b = ;".toList

theorem read_accentedSource : read accentedSource = .error ⟨⟨2, 5⟩, [.sign ';']⟩ := by
  decide +kernel

theorem offsetOf?_atOffset_accentedSource :
    accentedSource.IsBoundary 7 ∧ accentedSource.IsBoundary 13 ∧
      atOffset accentedSource 7 = ⟨1, 7⟩ ∧ atOffset accentedSource 13 = ⟨2, 5⟩ ∧
      (⟨1, 7⟩ : Position) < ⟨2, 5⟩ ∧ offsetOf? accentedSource ⟨2, 5⟩ = some 13 ∧
      (∃ offset, accentedSource.IsBoundary offset ∧
        atOffset accentedSource offset = ⟨2, 5⟩) := by
  have hquoted : accentedSource.IsBoundary 7 :=
    ⟨"a = 'é".toList, List.isPrefixOf_iff_prefix.mp (by decide), by decide⟩
  have hequals : accentedSource.IsBoundary 13 :=
    ⟨"a = 'é'\n  b ".toList, List.isPrefixOf_iff_prefix.mp (by decide), by decide⟩
  obtain ⟨hless, hback, -, herror⟩ := atOffset_lt_and_offsetOf?_atOffset accentedSource
  exact ⟨hquoted, hequals, by decide, by decide, hless 7 13 hquoted hequals (by decide),
    hback 13 hequals, herror _ read_accentedSource⟩

end Source.Position
end GrammarRepair
