/-!
# Texts and their sizes

A text is the list of its characters.  Ceilings and the order of repairs speak
of the size of a text in UTF-8, so this file holds that size and the cut at a
ceiling: the longest beginning that fits, which never splits a character.

There are only so many texts of a given size.  They are counted by numbers that
tell them apart, with a bound that depends on the size alone.
-/

namespace GrammarRepair

/-- A text, as the list of its characters. -/
abbrev Text := List Char

namespace Text

/-- The UTF-8 encoding of a text. -/
def utf8 (text : Text) : List UInt8 :=
  text.flatMap String.utf8EncodeChar

/-- The number of bytes a text takes in UTF-8. -/
def byteLength : Text → Nat
  | [] => 0
  | c :: rest => c.utf8Size + byteLength rest

@[simp] theorem byteLength_nil : byteLength [] = 0 := rfl

@[simp] theorem byteLength_cons (c : Char) (rest : Text) :
    byteLength (c :: rest) = c.utf8Size + byteLength rest := rfl

@[simp] theorem byteLength_append (a b : Text) :
    byteLength (a ++ b) = byteLength a + byteLength b := by
  induction a with
  | nil => simp
  | cons c rest ih => simp [ih, Nat.add_assoc]

/-- The size of a text counts the bytes of its encoding. -/
theorem length_utf8 (text : Text) : (utf8 text).length = byteLength text := by
  induction text with
  | nil => rfl
  | cons c rest ih =>
      have hrest : (rest.flatMap String.utf8EncodeChar).length = byteLength rest := ih
      simp [utf8, hrest]

/-- A character takes at least one byte. -/
theorem length_le_byteLength (text : Text) : text.length ≤ byteLength text := by
  induction text with
  | nil => exact Nat.le_refl 0
  | cons c rest ih =>
      have hsize := c.utf8Size_pos
      simp only [List.length_cons, byteLength_cons]
      omega

/-- An end of a text takes no more bytes than the text. -/
theorem byteLength_le_of_suffix {rest text : Text} (hrest : rest <:+ text) :
    rest.byteLength ≤ text.byteLength := by
  obtain ⟨start, rfl⟩ := hrest
  rw [byteLength_append]
  exact Nat.le_add_left _ _

/-- Nor does what follows a given beginning of it. -/
theorem byteLength_le_of_isPrefixOf?
    {start text rest : Text} (hrest : start.isPrefixOf? text = some rest) :
    rest.byteLength ≤ text.byteLength := by
  induction start generalizing text with
  | nil =>
      cases hrest
      exact Nat.le_refl _
  | cons c start ih =>
      cases text with
      | nil => cases hrest
      | cons d text =>
          change (if c == d then start.isPrefixOf? text else none) = some rest at hrest
          split at hrest
          · exact Nat.le_trans (ih hrest) (Nat.le_add_left _ _)
          · cases hrest

/-! ## Counting texts -/

/-- A number for a text: its characters are the digits, and there are 1112064
characters. -/
def code : Text → Nat
  | [] => 0
  | c :: rest => code rest * 1112064 + c.ordinal + 1

/-- More than all numbers of texts that take so many bytes. -/
def codeBound (bytes : Nat) : Nat :=
  Nat.pow 1112065 bytes

/-- Different texts have different numbers. -/
theorem code_injective {a b : Text} (hcode : code a = code b) : a = b := by
  induction a generalizing b with
  | nil =>
      cases b with
      | nil => rfl
      | cons d b => simp [code] at hcode
  | cons c a ih =>
      cases b with
      | nil => simp [code] at hcode
      | cons d b =>
          have hc : c.ordinal.val < 1112064 := c.ordinal.isLt
          have hd : d.ordinal.val < 1112064 := d.ordinal.isLt
          simp only [code] at hcode
          have hrest : code a = code b := by omega
          have hfirst : c.ordinal = d.ordinal := by omega
          rw [ih hrest, Char.ordinal_inj.mp hfirst]

theorem codeBound_le {bytes bytes' : Nat} (h : bytes ≤ bytes') :
    codeBound bytes ≤ codeBound bytes' :=
  Nat.pow_le_pow_right (by decide) h

theorem code_lt_codeBound_length (text : Text) : code text < codeBound text.length := by
  induction text with
  | nil => decide
  | cons c rest ih =>
      have hc : c.ordinal.val < 1112064 := c.ordinal.isLt
      have hbound : codeBound (rest.length + 1) = codeBound rest.length * 1112065 := rfl
      rw [code, List.length_cons, hbound]
      omega

theorem code_lt_codeBound (text : Text) : code text < codeBound text.byteLength :=
  Nat.lt_of_lt_of_le (code_lt_codeBound_length text) (codeBound_le (length_le_byteLength text))

/-! ## Cutting at a ceiling -/

/-- The longest beginning of a text that takes at most `limit` bytes.  A
character that does not fit ends it, so no character is split. -/
def truncate (limit : Nat) : Text → Text
  | [] => []
  | c :: rest =>
      if c.utf8Size ≤ limit then c :: truncate (limit - c.utf8Size) rest else []

/-- A cut text fits. -/
theorem byteLength_truncate_le (limit : Nat) (text : Text) :
    byteLength (truncate limit text) ≤ limit := by
  induction text generalizing limit with
  | nil => simp [truncate]
  | cons c rest ih =>
      by_cases hfits : c.utf8Size ≤ limit
      · have := ih (limit - c.utf8Size)
        simp only [truncate, if_pos hfits, byteLength_cons]
        omega
      · simp [truncate, hfits]

/-- A cut text is a beginning of the text. -/
theorem truncate_isPrefix (limit : Nat) (text : Text) : truncate limit text <+: text := by
  induction text generalizing limit with
  | nil => simp [truncate]
  | cons c rest ih =>
      by_cases hfits : c.utf8Size ≤ limit
      · simpa [truncate, hfits] using ih (limit - c.utf8Size)
      · simp [truncate, hfits]

/-- Every beginning that fits is part of the cut text. -/
theorem isPrefix_truncate
    {limit : Nat} {start text : Text} (hstart : start <+: text)
    (hfits : byteLength start ≤ limit) :
    start <+: truncate limit text := by
  induction text generalizing limit start with
  | nil => simpa [truncate] using hstart
  | cons c rest ih =>
      cases start with
      | nil => simp
      | cons d start =>
          obtain ⟨rfl, hrest⟩ := List.cons_prefix_cons.mp hstart
          simp only [byteLength_cons] at hfits
          have hc : d.utf8Size ≤ limit := by omega
          simpa [truncate, hc] using ih hrest (by omega)

/-- A text within the limit is not cut. -/
theorem truncate_of_le
    {limit : Nat} {text : Text} (hfits : byteLength text ≤ limit) :
    truncate limit text = text :=
  (truncate_isPrefix limit text).eq_of_length_le
    (isPrefix_truncate (List.prefix_refl text) hfits).length_le

/-- A text beyond the limit loses characters. -/
theorem length_truncate_lt
    {limit : Nat} {text : Text} (hlong : limit < byteLength text) :
    (truncate limit text).length < text.length := by
  apply Nat.lt_of_not_le
  intro hlength
  have hwhole : truncate limit text = text :=
    (truncate_isPrefix limit text).eq_of_length_le hlength
  have hcut := byteLength_truncate_le limit text
  rw [hwhole] at hcut
  exact Nat.not_le_of_lt hlong hcut

end Text
end GrammarRepair
