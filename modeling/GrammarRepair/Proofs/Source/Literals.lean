import GrammarRepair.Proofs.Source.Spelling
import GrammarRepair.Source.Lexeme

/-!
# Reading signs, texts and characters

Each of these readers finds its token exactly where the text begins with it.
Between quotes a backslash never stands for itself, so an escape cannot be
mistaken for two plain characters.
-/

namespace GrammarRepair.Source

theorem escapeValue?_eq_some_iff {e c : Char} : escapeValue? e = some c ↔ Escape e c := by
  constructor
  · intro h
    rw [escapeValue?] at h
    split at h
    · rename_i hself
      obtain rfl := Option.some.inj h
      obtain rfl | rfl | rfl := hself
      · exact .doubleQuote
      · exact .singleQuote
      · exact .backslash
    · split at h
      · rename_i hfeed
        obtain rfl := Option.some.inj h
        exact hfeed ▸ .lineFeed
      · split at h
        · rename_i htab
          obtain rfl := Option.some.inj h
          exact htab ▸ .tab
        · simp at h
  · rintro ⟨⟩ <;> rfl

theorem readTextEnd_escape {e c : Char} (hescape : Escape e c) (rest : Text) :
    readTextEnd ('\\' :: e :: rest) = (readTextEnd rest).map (c :: ·) := by
  rw [readTextEnd, escapeValue?_eq_some_iff.mpr hescape]

theorem readTextEnd_plain {c : Char} (hquote : c ≠ '"') (hbackslash : c ≠ '\\') (rest : Text) :
    readTextEnd (c :: rest) = (readTextEnd rest).map (c :: ·) := by
  rw [readTextEnd]
  · exact hquote
  · exact fun h _ => hbackslash h
  · exact fun _ _ h _ => hbackslash h

theorem readTextEnd_eq_found_iff {text value rest : Text} :
    readTextEnd text = .found value rest ↔
      ∃ body, text = body ++ '"' :: rest ∧ Quotes body value := by
  constructor
  · intro hread
    fun_induction readTextEnd text generalizing value with
    | case1 => simp at hread
    | case2 tail =>
        obtain ⟨rfl, rfl⟩ := Outcome.found.inj hread
        exact ⟨[], rfl, .nil⟩
    | case3 => simp at hread
    | case4 e tail c hescape ih =>
        obtain ⟨value, htail, rfl⟩ := Outcome.map_eq_found_iff.mp hread
        obtain ⟨body, rfl, hbody⟩ := ih htail
        exact ⟨'\\' :: e :: body, rfl, .escape (escapeValue?_eq_some_iff.mp hescape) hbody⟩
    | case5 => simp at hread
    | case6 c tail hquote hlast hescape ih =>
        have hbackslash : c ≠ '\\' := by
          intro hc
          cases tail with
          | nil => exact hlast hc rfl
          | cons e tail => exact hescape e tail hc rfl
        obtain ⟨value, htail, rfl⟩ := Outcome.map_eq_found_iff.mp hread
        obtain ⟨body, rfl, hbody⟩ := ih htail
        exact ⟨c :: body, rfl, .plain hquote hbackslash hbody⟩
  · rintro ⟨body, rfl, hbody⟩
    induction hbody with
    | nil => rfl
    | plain hquote hbackslash _ ih =>
        rw [List.cons_append, readTextEnd_plain hquote hbackslash, ih]
        rfl
    | escape hescape _ ih =>
        rw [List.cons_append, List.cons_append, readTextEnd_escape hescape, ih]
        rfl

theorem readText_eq_found_iff {text value rest : Text} :
    readText text = .found value rest ↔ Begins (.text value) text rest := by
  constructor
  · intro hread
    match text with
    | [] => simp [readText] at hread
    | c :: text =>
        rw [readText] at hread
        split at hread
        · rename_i hquote
          obtain ⟨body, rfl, hbody⟩ := readTextEnd_eq_found_iff.mp hread
          exact ⟨'"' :: (body ++ ['"']), by simp [hquote], .text hbody⟩
        · simp at hread
  · rintro ⟨written, rfl, ⟨hbody⟩⟩
    rename_i body
    rw [List.cons_append, List.append_assoc, readText, if_pos rfl]
    exact readTextEnd_eq_found_iff.mpr ⟨body, rfl, hbody⟩

theorem readSign_eq_found_iff {sign : Char} {text rest : Text} :
    readSign sign text = .found () rest ↔ text = sign :: rest := by
  cases text with
  | nil => simp [readSign]
  | cons c text =>
      rw [readSign]
      split
      · rename_i h
        simp [h]
      · rename_i h
        simp [h]

theorem readEscape_eq_found_iff {text rest : Text} {c : Char} :
    readEscape text = .found c rest ↔ ∃ e, Escape e c ∧ text = e :: rest := by
  constructor
  · intro hread
    cases text with
    | nil => simp [readEscape] at hread
    | cons e text =>
        rw [readEscape] at hread
        split at hread
        · rename_i hescape
          obtain ⟨rfl, rfl⟩ := Outcome.found.inj hread
          exact ⟨e, escapeValue?_eq_some_iff.mp hescape, rfl⟩
        · simp at hread
  · rintro ⟨e, hescape, rfl⟩
    rw [readEscape, escapeValue?_eq_some_iff.mpr hescape]

theorem readQuoted_eq_found_iff {text rest : Text} {c : Char} :
    readQuoted text = .found c rest ↔
      (c ≠ '\\' ∧ text = c :: rest) ∨ ∃ e, Escape e c ∧ text = '\\' :: e :: rest := by
  constructor
  · intro hread
    cases text with
    | nil => simp [readQuoted] at hread
    | cons d text =>
        rw [readQuoted] at hread
        split at hread
        · rename_i hbackslash
          obtain ⟨e, hescape, rfl⟩ := readEscape_eq_found_iff.mp hread
          exact .inr ⟨e, hescape, by rw [hbackslash]⟩
        · rename_i hbackslash
          obtain ⟨rfl, rfl⟩ := Outcome.found.inj hread
          exact .inl ⟨hbackslash, rfl⟩
  · rintro (⟨hbackslash, rfl⟩ | ⟨e, hescape, rfl⟩)
    · rw [readQuoted, if_neg hbackslash]
    · rw [readQuoted, if_pos rfl]
      exact readEscape_eq_found_iff.mpr ⟨e, hescape, rfl⟩

theorem begins_character_iff {text rest : Text} {c : Char} :
    Begins (.character c) text rest ↔
      ∃ tail, text = '\'' :: tail ∧ readQuoted tail = .found c ('\'' :: rest) := by
  constructor
  · rintro ⟨written, rfl, hwrites⟩
    cases hwrites with
    | plain hbackslash =>
        exact ⟨_, rfl, readQuoted_eq_found_iff.mpr (.inl ⟨hbackslash, rfl⟩)⟩
    | escape hescape =>
        exact ⟨_, rfl, readQuoted_eq_found_iff.mpr (.inr ⟨_, hescape, rfl⟩)⟩
  · rintro ⟨tail, rfl, hquoted⟩
    obtain ⟨hbackslash, rfl⟩ | ⟨e, hescape, rfl⟩ := readQuoted_eq_found_iff.mp hquoted
    · exact ⟨_, rfl, .plain hbackslash⟩
    · exact ⟨_, rfl, .escape hescape⟩

theorem readCharacter_eq_found_iff {text rest : Text} {c : Char} :
    readCharacter text = .found c rest ↔ Begins (.character c) text rest := by
  rw [begins_character_iff]
  constructor
  · intro hread
    match text with
    | [] => simp [readCharacter] at hread
    | d :: text =>
        rw [readCharacter] at hread
        split at hread
        · rename_i hquote
          split at hread
          · rename_i value later hvalue
            split at hread
            · rename_i _ hsign
              obtain ⟨rfl, rfl⟩ := Outcome.found.inj hread
              obtain rfl := readSign_eq_found_iff.mp hsign
              exact ⟨text, by rw [hquote], hvalue⟩
            · simp at hread
            · simp at hread
          · rename_i hmissing
            exact absurd hread (hmissing c rest)
        · simp at hread
  · rintro ⟨tail, rfl, hquoted⟩
    have hsign : readSign '\'' ('\'' :: rest) = .found () rest := readSign_eq_found_iff.mpr rfl
    rw [readCharacter, if_pos rfl, hquoted]
    dsimp only
    rw [hsign]

end GrammarRepair.Source
