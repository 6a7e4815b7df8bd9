import GrammarRepair.Proofs.Source.Endings

/-!
# Places where reading gets stuck

A reader of a phrase gets stuck at a place where the phrase could go on.  This
file says what that means, between two tokens and inside of one, and shows it of
the readers of single tokens.  Only behind a bad escape it is too late, since
nothing can follow there; then the phrase could go on behind the backslash.
-/

namespace GrammarRepair.Source

/-! ## Beginnings of phrases -/

variable {α β : Type} {phrase : List Token → α → Prop} {phrase' : List Token → β → Prop}
variable {text middle rest : Text} {tokens front : List Token}

/-- The tokens begin a phrase, and what is missing can be written. -/
def Begun (phrase : List Token → α → Prop) (tokens : List Token) : Prop :=
  ∃ later value, (∀ token ∈ later, token.Writable) ∧ phrase (tokens ++ later) value

theorem Begun.of_phrase {value : α} (h : phrase tokens value) : Begun phrase tokens :=
  ⟨[], value, by simp, by rwa [List.append_nil]⟩

/-- What begins a part of a phrase begins the phrase, given that the whole part
does. -/
theorem Begun.within (h : Begun phrase tokens)
    (hwhole : ∀ tokens value, phrase tokens value → Begun phrase' (front ++ tokens)) :
    Begun phrase' (front ++ tokens) := by
  obtain ⟨later, value, hlater, hphrase⟩ := h
  obtain ⟨last, value', hlast, hphrase'⟩ := hwhole _ value hphrase
  refine ⟨later ++ last, value', List.forall_mem_append.mpr ⟨hlater, hlast⟩, ?_⟩
  simpa using hphrase'

/-! ## Places where a source could go on -/

/-- A string or character literal that has begun and in which nothing is wrong so
far. -/
inductive OpenLiteral : Text → Prop
  | text {body value : Text} (hbody : Quotes body value) : OpenLiteral ('"' :: body)
  | character : OpenLiteral ['\'']

/-- Of the text, `rest` is left at a place where a phrase of this kind could go
on: between two tokens or inside of one.  Or else a bad escape in a literal stands
in front of that place, and the phrase could go on behind the backslash. -/
inductive Blocked (phrase : List Token → α → Prop) (text rest : Text) : Prop
  | between {tokens : List Token} {middle : Text} (hbegun : Begun phrase tokens)
      (hspells : Spells tokens text middle) (hgap : Gap middle rest)
  | inside {tokens : List Token} {token : Token} {middle part : Text}
      (hbegun : Begun phrase (tokens ++ [token])) (hspells : Spells tokens text middle)
      (hpart : part ≠ []) (hopened : token.OpenedBy part) (hgap : Gap middle (part ++ rest))
  | escape {tokens : List Token} {token : Token} {middle part : Text} {e : Char}
      (hbegun : Begun phrase (tokens ++ [token])) (hspells : Spells tokens text middle)
      (hliteral : OpenLiteral part) (hopened : token.OpenedBy (part ++ ['\\']))
      (hescape : escapeValue? e = none) (hgap : Gap middle (part ++ '\\' :: e :: rest))

/-- A place in a part of a phrase is a place in the phrase. -/
theorem Blocked.within (hfront : Spells front text middle) (h : Blocked phrase middle rest)
    (hwhole : ∀ tokens value, phrase tokens value → Begun phrase' (front ++ tokens)) :
    Blocked phrase' text rest := by
  cases h with
  | between hbegun hspells hgap =>
      exact .between (hbegun.within hwhole) (hfront.append hspells) hgap
  | inside hbegun hspells hpart hopened hgap =>
      have hbegun := hbegun.within hwhole
      rw [← List.append_assoc] at hbegun
      exact .inside hbegun (hfront.append hspells) hpart hopened hgap
  | escape hbegun hspells hliteral hopened hescape hgap =>
      have hbegun := hbegun.within hwhole
      rw [← List.append_assoc] at hbegun
      exact .escape hbegun (hfront.append hspells) hliteral hopened hescape hgap

/-- The same with nothing in front of the part. -/
theorem Blocked.imp (h : Blocked phrase text rest)
    (hwhole : ∀ tokens value, phrase tokens value → Begun phrase' tokens) :
    Blocked phrase' text rest :=
  h.within (.nil text) hwhole

/-! ## Single tokens -/

/-- A token of one kind, alone. -/
def Single (kind : α → Token) (tokens : List Token) (value : α) : Prop :=
  tokens = [kind value]

theorem begun_single (kind : α → Token) (value : α) : Begun (Single kind) ([] ++ [kind value]) :=
  .of_phrase rfl

/-- Found, or missing right where the text begins. -/
def Outcome.Immediate (text : Text) (outcome : Outcome α) : Prop :=
  outcome = .missing text ∨ ∃ value rest, outcome = .found value rest

theorem readSign_immediate (sign : Char) (text : Text) : (readSign sign text).Immediate text := by
  cases text with
  | nil => exact .inl rfl
  | cons c tail =>
      unfold readSign
      dsimp only
      split
      · exact .inr ⟨_, _, rfl⟩
      · exact .inl rfl

theorem readName_immediate (text : Text) : (readName text).Immediate text := by
  cases text with
  | nil => exact .inl rfl
  | cons c tail =>
      unfold readName
      dsimp only
      split
      · exact .inr ⟨_, _, rfl⟩
      · exact .inl rfl

theorem readCount_immediate (text : Text) : (readCount text).Immediate text := by
  cases text with
  | nil => exact .inl rfl
  | cons c tail =>
      unfold readCount
      dsimp only
      split
      · exact .inr ⟨_, _, rfl⟩
      · split
        · split
          · exact .inr ⟨_, _, rfl⟩
          · exact .inl rfl
        · exact .inl rfl

theorem Outcome.Immediate.ne_stuck {outcome : Outcome α} (h : outcome.Immediate text)
    (failure : Stuck) : outcome ≠ .stuck failure := by
  obtain rfl | ⟨value, rest, rfl⟩ := h
  · simp
  · simp

theorem Outcome.Immediate.eq_of_missing {outcome : Outcome α} {rest : Text}
    (h : outcome.Immediate text) (hmissing : outcome = .missing rest) : rest = text := by
  obtain rfl | ⟨value, later, rfl⟩ := h
  · exact (Outcome.missing.inj hmissing).symm
  · simp at hmissing

/-- Insisting on what is missing fails right behind the gap. -/
theorem Outcome.Immediate.gap_of_require {outcome : Outcome α} {expected : List Expectation}
    {failure : Stuck} (h : outcome.Immediate (skipBlank text))
    (hrequire : outcome.require expected = .error failure) : Gap text failure.rest := by
  obtain hmissing | ⟨inner, hstuck, -⟩ := eq_missing_or_stuck_of_require hrequire
  · exact h.eq_of_missing hmissing ▸ gap_skipBlank text
  · exact absurd hstuck (h.ne_stuck inner)

theorem exists_bad_escape_of_readTextEnd {failure : Stuck}
    (h : readTextEnd text = .stuck failure) :
    ∃ body value e, text = body ++ '\\' :: e :: failure.rest ∧ Quotes body value ∧
      escapeValue? e = none := by
  fun_induction readTextEnd text with
  | case1 => simp at h
  | case2 tail => simp at h
  | case3 => simp at h
  | case4 e tail c hescape ih =>
      obtain ⟨body, value, bad, rfl, hbody, hbad⟩ := ih (Outcome.map_eq_stuck_iff.mp h)
      exact ⟨'\\' :: e :: body, c :: value, bad, rfl,
        .escape (escapeValue?_eq_some_iff.mp hescape) hbody, hbad⟩
  | case5 e tail hescape =>
      obtain rfl := Outcome.stuck.inj h
      exact ⟨[], [], e, rfl, .nil, hescape⟩
  | case6 c tail hquote hlast hescape ih =>
      have hbackslash : c ≠ '\\' := by
        intro hc
        cases tail with
        | nil => exact hlast hc rfl
        | cons e tail => exact hescape e tail hc rfl
      obtain ⟨body, value, bad, rfl, hbody, hbad⟩ := ih (Outcome.map_eq_stuck_iff.mp h)
      exact ⟨c :: body, c :: value, bad, rfl, .plain hquote hbackslash hbody, hbad⟩

theorem blocked_of_readText {failure : Stuck} (h : readText (skipBlank text) = .stuck failure) :
    Blocked (Single Token.text) text failure.rest := by
  have hgap := gap_skipBlank text
  generalize skipBlank text = next at h hgap
  cases next with
  | nil => simp [readText] at h
  | cons c tail =>
      rw [readText] at h
      split at h
      · rename_i hquote
        obtain ⟨body, value, e, rfl, hbody, hescape⟩ := exists_bad_escape_of_readTextEnd h
        obtain rfl := hquote
        exact .escape (begun_single Token.text _) (.nil text) (.text hbody)
          (Token.opened_text_backslash hbody) hescape hgap
      · simp at h

/-- Where no character is quoted, the text ended, perhaps behind a backslash. -/
theorem readQuoted_eq_missing {rest : Text} (h : readQuoted text = .missing rest) :
    rest = [] ∧ (text = [] ∨ text = ['\\']) := by
  cases text with
  | nil =>
      obtain rfl := Outcome.missing.inj h
      exact ⟨rfl, .inl rfl⟩
  | cons c tail =>
      rw [readQuoted] at h
      split at h
      · rename_i hbackslash
        cases tail with
        | nil =>
            obtain rfl := Outcome.missing.inj h
            exact ⟨rfl, .inr (by rw [hbackslash])⟩
        | cons e tail =>
            rw [readEscape] at h
            split at h
            · simp at h
            · simp at h
      · simp at h

theorem readQuoted_eq_stuck {failure : Stuck} (h : readQuoted text = .stuck failure) :
    ∃ e, text = '\\' :: e :: failure.rest ∧ escapeValue? e = none := by
  cases text with
  | nil => simp [readQuoted] at h
  | cons c tail =>
      rw [readQuoted] at h
      split at h
      · rename_i hbackslash
        cases tail with
        | nil => simp [readEscape] at h
        | cons e tail =>
            rw [readEscape] at h
            split at h
            · simp at h
            · rename_i hescape
              obtain rfl := Outcome.stuck.inj h
              exact ⟨e, by rw [hbackslash], hescape⟩
      · simp at h

/-- A character that lacks its closing quote. -/
theorem blocked_of_readQuoted {c : Char} {tail rest : Text} (hgap : Gap text ('\'' :: tail))
    (h : readQuoted tail = .found c rest) : Blocked (Single Token.character) text rest := by
  obtain ⟨hbackslash, rfl⟩ | ⟨e, hescape, rfl⟩ := readQuoted_eq_found_iff.mp h
  · exact .inside (begun_single Token.character c) (.nil text) (List.cons_ne_nil _ _)
      (Token.opened_character hbackslash) hgap
  · exact .inside (begun_single Token.character c) (.nil text) (List.cons_ne_nil _ _)
      (Token.opened_character_escape hescape) hgap

theorem blocked_of_readCharacter {failure : Stuck}
    (h : readCharacter (skipBlank text) = .stuck failure) :
    Blocked (Single Token.character) text failure.rest := by
  have hgap := gap_skipBlank text
  generalize skipBlank text = next at h hgap
  cases next with
  | nil => simp [readCharacter] at h
  | cons c tail =>
      rw [readCharacter] at h
      split at h
      · rename_i hquote
        obtain rfl := hquote
        split at h
        · rename_i value later hquoted
          split at h
          · simp at h
          · rename_i _ hsign
            obtain rfl := Outcome.stuck.inj h
            obtain rfl := (readSign_immediate _ _).eq_of_missing hsign
            exact blocked_of_readQuoted hgap hquoted
          · rename_i hsign
            exact absurd hsign ((readSign_immediate _ _).ne_stuck _)
        · obtain ⟨e, rfl, hescape⟩ := readQuoted_eq_stuck h
          exact .escape (begun_single Token.character '\n') (.nil text) .character
            Token.opened_character_backslash hescape hgap
      · simp at h

theorem blocked_of_readCharacter_missing {rest : Text}
    (h : readCharacter (skipBlank text) = .missing rest) :
    Blocked (Single Token.character) text rest := by
  have hgap := gap_skipBlank text
  have hnone : Begun (Single Token.character) [] :=
    ⟨[.character 'a'], 'a', by simpa using ⟨_, fun _ => .plain (by decide)⟩, rfl⟩
  generalize skipBlank text = next at h hgap
  cases next with
  | nil =>
      obtain rfl := Outcome.missing.inj h
      exact .between hnone (.nil text) hgap
  | cons c tail =>
      rw [readCharacter] at h
      split at h
      · rename_i hquote
        obtain rfl := hquote
        split at h
        · split at h
          · simp at h
          · simp at h
          · simp at h
        · obtain ⟨rfl, rfl | rfl⟩ := readQuoted_eq_missing h
          · exact .inside (begun_single Token.character 'a') (.nil text) (List.cons_ne_nil _ _)
              Token.opened_character_quote hgap
          · exact .inside (begun_single Token.character '\n') (.nil text) (List.cons_ne_nil _ _)
              Token.opened_character_backslash hgap
      · obtain rfl := Outcome.missing.inj h
        exact .between hnone (.nil text) hgap

/-- Insisting on a character. -/
theorem blocked_of_require_readCharacter {expected : List Expectation} {failure : Stuck}
    (h : (readCharacter (skipBlank text)).require expected = .error failure) :
    Blocked (Single Token.character) text failure.rest := by
  obtain hmissing | ⟨inner, hstuck, hrest⟩ := Outcome.eq_missing_or_stuck_of_require h
  · exact blocked_of_readCharacter_missing hmissing
  · exact hrest ▸ blocked_of_readCharacter hstuck

end GrammarRepair.Source
