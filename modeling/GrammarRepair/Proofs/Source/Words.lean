import GrammarRepair.Proofs.Source.Spelling
import GrammarRepair.Source.Lexeme

/-!
# Reading names and counts

The readers of names and counts stop at the first character outside of a class.
That this is the longest possible name, or count, rests on one fact about
classes of characters, `longest_iff_of_class`; what is special about counts is
that nothing follows a zero.
-/

namespace GrammarRepair.Source

/-! ## As far as a class of characters reaches -/

/-- Where it depends on a class of characters alone how a text of this shape may
go on, the longest one ends in front of the first character that is not in the
class. -/
theorem longest_iff_of_class
    {shape : Text → Prop} {p : Char → Bool} {written rest : Text}
    (hshape : ∀ more, shape (written ++ more) ↔ ∀ d ∈ more, p d = true) :
    Longest shape written rest ↔ ∀ d ∈ rest.head?, p d = false := by
  constructor
  · rintro ⟨-, hlongest⟩ d hd
    obtain ⟨tail, rfl⟩ := List.head?_eq_some_iff.mp hd
    rw [← Bool.not_eq_true]
    intro hp
    have hmore : shape (written ++ [d]) := (hshape [d]).mpr (by simpa using hp)
    exact List.cons_ne_nil d [] (hlongest [d] ⟨tail, rfl⟩ hmore)
  · intro hhead
    refine ⟨by simpa using (hshape []).mpr (by simp), ?_⟩
    rintro more ⟨tail, rfl⟩ hmore
    match more with
    | [] => rfl
    | d :: more =>
        have hin := (hshape (d :: more)).mp hmore d List.mem_cons_self
        have hout := hhead d rfl
        exact absurd (hin.symm.trans hout) (by decide)

theorem head?_dropWhile_eq_false (p : Char → Bool) (text : Text) :
    ∀ d ∈ (text.dropWhile p).head?, p d = false := by
  intro d hd
  have hhead := List.head?_dropWhile_not p text
  rw [Option.mem_def.mp hd] at hhead
  simpa using hhead

theorem forall_mem_takeWhile (p : Char → Bool) (text : Text) :
    ∀ d ∈ text.takeWhile p, p d = true := by
  intro d hd
  exact List.all_eq_true.mp List.all_takeWhile d hd

/-- A class of characters is taken up to its border. -/
theorem takeWhile_dropWhile_append
    {p : Char → Bool} {taken rest : Text} (htaken : ∀ d ∈ taken, p d = true)
    (hrest : ∀ d ∈ rest.head?, p d = false) :
    (taken ++ rest).takeWhile p = taken ∧ (taken ++ rest).dropWhile p = rest := by
  rw [List.takeWhile_append_of_pos htaken, List.dropWhile_append_of_pos htaken]
  match rest with
  | [] => simp
  | d :: rest => simp [hrest d rfl]

/-! ## Names -/

theorem isNameStart_iff {c : Char} : isNameStart c = true ↔ c.isAlpha = true ∨ c = '_' := by
  simp [isNameStart]

theorem isNamePart_iff {c : Char} :
    isNamePart c = true ↔ c.isAlphanum = true ∨ c = '_' ∨ c = '-' := by
  simp [isNamePart, or_assoc]

theorem isName_cons_iff {c : Char} {rest : Text} :
    IsName (c :: rest) ↔ isNameStart c = true ∧ ∀ d ∈ rest, isNamePart d = true := by
  simp only [IsName, isNameStart_iff, isNamePart_iff, List.cons.injEq]
  constructor
  · rintro ⟨_, _, ⟨rfl, rfl⟩, hstart, hrest⟩
    exact ⟨hstart, hrest⟩
  · rintro ⟨hstart, hrest⟩
    exact ⟨c, rest, ⟨rfl, rfl⟩, hstart, hrest⟩

theorem IsName.exists_cons {text : Text} (h : IsName text) :
    ∃ c tail, text = c :: tail ∧ isNameStart c = true ∧ ∀ d ∈ tail, isNamePart d = true := by
  obtain ⟨c, tail, rfl, hstart, hpart⟩ := h
  exact ⟨c, tail, rfl, isName_cons_iff.mp ⟨c, tail, rfl, hstart, hpart⟩⟩

theorem IsName.append_iff {written : Text} (h : IsName written) (more : Text) :
    IsName (written ++ more) ↔ ∀ d ∈ more, isNamePart d = true := by
  obtain ⟨c, tail, rfl, hstart, htail⟩ := h.exists_cons
  rw [List.cons_append, isName_cons_iff]
  constructor
  · rintro ⟨-, hparts⟩ d hd
    exact hparts d (List.mem_append_right tail hd)
  · intro hmore
    exact ⟨hstart, List.forall_mem_append.mpr ⟨htail, hmore⟩⟩

theorem longest_isName_iff {written rest : Text} :
    Longest IsName written rest ↔
      IsName written ∧ ∀ d ∈ rest.head?, isNamePart d = false := by
  constructor
  · intro h
    exact ⟨h.1, (longest_iff_of_class h.1.append_iff).mp h⟩
  · rintro ⟨hname, hrest⟩
    exact (longest_iff_of_class hname.append_iff).mpr hrest

theorem readName_eq_found_iff {text rest : Text} {name : String} :
    readName text = .found name rest ↔ Begins (.name name) text rest := by
  rw [begins_name_iff, longest_isName_iff]
  constructor
  · intro hread
    match text with
    | [] => simp [readName] at hread
    | c :: text =>
        rw [readName] at hread
        split at hread
        · rename_i hstart
          obtain ⟨rfl, rfl⟩ := Outcome.found.inj hread
          rw [String.toList_ofList]
          exact ⟨congrArg (c :: ·) List.takeWhile_append_dropWhile.symm,
            isName_cons_iff.mpr ⟨hstart, forall_mem_takeWhile isNamePart text⟩,
            head?_dropWhile_eq_false isNamePart text⟩
        · simp at hread
  · rintro ⟨rfl, hname, hrest⟩
    obtain ⟨c, tail, hlist, hstart, hpart⟩ := hname.exists_cons
    obtain ⟨htake, hdrop⟩ := takeWhile_dropWhile_append hpart hrest
    rw [hlist, List.cons_append, readName, if_pos hstart, htake, hdrop, ← hlist,
      String.ofList_toList]

/-! ## Counts -/

theorem exists_eq_digitChar {c : Char} (hc : c.isDigit = true) :
    ∃ k < 10, c = Nat.digitChar k := by
  obtain ⟨hlow, hhigh⟩ := Char.isDigit_iff_toNat.mp hc
  have hzero : '0'.toNat = 48 := rfl
  have hnine : '9'.toNat = 57 := rfl
  have hlt : c.toNat - 48 < 10 := by omega
  refine ⟨c.toNat - 48, hlt, Char.toNat_inj.mp ?_⟩
  rw [Nat.toNat_digitChar_of_lt_ten hlt]
  omega

/-- Behind a count that is not zero, digits make a larger count. -/
theorem isDecimal_append_iff {n : Nat} (hn : 0 < n) (more : Text) :
    IsDecimal (Nat.toDigits 10 n ++ more) ↔ ∀ d ∈ more, d.isDigit = true := by
  constructor
  · rintro ⟨m, hm⟩ d hd
    have hmem : d ∈ Nat.toDigits 10 m := hm ▸ List.mem_append_right _ hd
    exact Nat.isDigit_of_mem_toDigits (by decide) (by decide) hmem
  · intro hmore
    induction more generalizing n with
    | nil => exact ⟨n, List.append_nil _⟩
    | cons d more ih =>
        obtain ⟨k, hk, rfl⟩ := exists_eq_digitChar (hmore d List.mem_cons_self)
        have hdigits : Nat.toDigits 10 n ++ [k.digitChar] = Nat.toDigits 10 (10 * n + k) := by
          rw [← Nat.toDigits_of_lt_base hk, Nat.toDigits_append_toDigits (by decide) hn hk]
        rw [List.append_cons, hdigits]
        exact ih (by omega) fun d hd => hmore d (List.mem_cons_of_mem _ hd)

theorem head?_toDigits_ne_zero {n : Nat} (hn : 0 < n) : (Nat.toDigits 10 n).head? ≠ some '0' := by
  induction n using Nat.strongRecOn with
  | ind n ih =>
      by_cases hlt : n < 10
      · rw [Nat.toDigits_of_lt_base hlt]
        simp [Nat.ne_of_gt hn]
      · rw [Nat.toDigits_of_base_le (by decide) (Nat.le_of_not_lt hlt), List.head?_append]
        have hdiv := ih (n / 10) (by omega) (by omega)
        match hdigits : Nat.toDigits 10 (n / 10) with
        | [] => exact absurd hdigits Nat.toDigits_ne_nil
        | d :: digits => simpa [hdigits] using hdiv

/-- A zero stands alone. -/
theorem isDecimal_zero_append_iff (more : Text) :
    IsDecimal (['0'] ++ more) ↔ more = [] := by
  constructor
  · rintro ⟨n, hn⟩
    obtain rfl | hpos := Nat.eq_zero_or_pos n
    · rw [Nat.toDigits_zero] at hn
      exact List.append_cancel_left hn
    · exact absurd (hn ▸ rfl) (head?_toDigits_ne_zero hpos)
  · rintro rfl
    exact ⟨0, rfl⟩

theorem longest_isDecimal_zero (rest : Text) : Longest IsDecimal ['0'] rest := by
  refine ⟨⟨0, rfl⟩, ?_⟩
  intro more _ hmore
  exact (isDecimal_zero_append_iff more).mp hmore

theorem longest_isDecimal_iff {n : Nat} {rest : Text} (hn : 0 < n) :
    Longest IsDecimal (Nat.toDigits 10 n) rest ↔ ∀ d ∈ rest.head?, d.isDigit = false :=
  longest_iff_of_class (isDecimal_append_iff hn)

/-- The digits from one that is not zero up to where the digits end are a
count. -/
theorem exists_toDigits_eq_cons_takeWhile {c : Char} (hc : c.isDigit = true) (hzero : c ≠ '0')
    (rest : Text) : ∃ n, 0 < n ∧ Nat.toDigits 10 n = c :: rest.takeWhile Char.isDigit := by
  obtain ⟨k, hk, rfl⟩ := exists_eq_digitChar hc
  have hpos : 0 < k := Nat.pos_of_ne_zero fun h => hzero (h ▸ rfl)
  have happend := isDecimal_append_iff hpos (rest.takeWhile Char.isDigit)
  rw [Nat.toDigits_of_lt_base hk] at happend
  obtain ⟨n, hn⟩ := happend.mpr (forall_mem_takeWhile Char.isDigit rest)
  refine ⟨n, Nat.pos_of_ne_zero fun h => hzero ?_, hn.symm⟩
  rw [h, Nat.toDigits_zero] at hn
  exact (List.cons.inj hn).1

/-- The first digit of a count that is not zero is a digit but no zero, and the
others are digits. -/
theorem exists_toDigits_eq_cons {n : Nat} (hn : 0 < n) :
    ∃ c tail, Nat.toDigits 10 n = c :: tail ∧ c.isDigit = true ∧ c ≠ '0' ∧
      ∀ d ∈ tail, d.isDigit = true := by
  have hdigit : ∀ d ∈ Nat.toDigits 10 n, d.isDigit = true := fun d hd =>
    Nat.isDigit_of_mem_toDigits (by decide) (by decide) hd
  have hzero := head?_toDigits_ne_zero hn
  match hlist : Nat.toDigits 10 n with
  | [] => exact absurd hlist Nat.toDigits_ne_nil
  | c :: tail =>
      rw [hlist] at hdigit hzero
      refine ⟨c, tail, rfl, hdigit c List.mem_cons_self, ?_, ?_⟩
      · exact fun h => hzero (congrArg some h)
      · exact fun d hd => hdigit d (List.mem_cons_of_mem _ hd)

theorem readCount_cons_of_isDigit {c : Char} (hc : c.isDigit = true) (hzero : c ≠ '0')
    (rest : Text) :
    readCount (c :: rest) =
      if Nat.ofDigitChars 10 (c :: rest.takeWhile Char.isDigit) 0 < UInt32.size then
        .found (Nat.ofDigitChars 10 (c :: rest.takeWhile Char.isDigit) 0)
          (rest.dropWhile Char.isDigit)
      else .missing (c :: rest) := by
  rw [readCount, if_neg hzero, if_pos hc]
  rfl

theorem begins_count_of_readCount {text rest : Text} {n : Nat}
    (h : readCount text = .found n rest) : Begins (.count n) text rest := by
  rw [begins_count_iff]
  match text with
  | [] => simp [readCount] at h
  | c :: text =>
      by_cases hzero : c = '0'
      · rw [readCount, if_pos hzero] at h
        obtain ⟨rfl, rfl⟩ := Outcome.found.inj h
        exact ⟨by rw [hzero]; rfl, by decide, longest_isDecimal_zero text⟩
      · by_cases hdigit : c.isDigit = true
        · obtain ⟨m, hpos, hdigits⟩ := exists_toDigits_eq_cons_takeWhile hdigit hzero text
          rw [readCount_cons_of_isDigit hdigit hzero, ← hdigits, Nat.ofDigitChars_ten_toDigits] at h
          split at h
          · rename_i hsize
            obtain ⟨rfl, rfl⟩ := Outcome.found.inj h
            refine ⟨?_, hsize, (longest_isDecimal_iff hpos).mpr ?_⟩
            · rw [hdigits, List.cons_append, List.takeWhile_append_dropWhile]
            · exact head?_dropWhile_eq_false Char.isDigit text
          · simp at h
        · rw [readCount, if_neg hzero, if_neg hdigit] at h
          simp at h

theorem readCount_eq_found_iff {text rest : Text} {n : Nat} :
    readCount text = .found n rest ↔ Begins (.count n) text rest := by
  constructor
  · exact begins_count_of_readCount
  · intro h
    obtain ⟨rfl, hsize, hlongest⟩ := begins_count_iff.mp h
    obtain rfl | hpos := Nat.eq_zero_or_pos n
    · rfl
    · obtain ⟨c, tail, hlist, hdigit, hzero, htail⟩ := exists_toDigits_eq_cons hpos
      have hhead := (longest_isDecimal_iff hpos).mp hlongest
      obtain ⟨htake, hdrop⟩ := takeWhile_dropWhile_append htail hhead
      rw [hlist, List.cons_append, readCount_cons_of_isDigit hdigit hzero, htake, hdrop, ← hlist,
        Nat.ofDigitChars_ten_toDigits, if_pos hsize]

end GrammarRepair.Source
