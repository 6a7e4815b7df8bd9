import GrammarRepair.Proofs.Source.Literals
import GrammarRepair.Proofs.Source.Words

/-!
# Gaps between tokens

Skipping white space and comments goes as far as a gap can go.  No token begins
with a character that could belong to a gap, so wherever a token is spelled
behind a gap, it stands in front once the gap is skipped.  The first character
of a token tells most kinds of tokens apart, and readers decide by it.
-/

namespace GrammarRepair.Source

theorem isBlank_iff {c : Char} : isBlank c = true ↔ c ∈ whiteSpace := by
  simp [isBlank, whiteSpace, or_assoc]

/-! ## Skipping finds a gap -/

mutual

theorem gap_skipBlank (text : Text) : Gap text (skipBlank text) := by
  match text with
  | [] => exact .none []
  | c :: rest =>
      rw [skipBlank]
      split
      · rename_i hblank
        exact .blank (isBlank_iff.mp hblank) (gap_skipBlank rest)
      · split
        · rename_i hsign
          rw [hsign]
          exact @gap_skipComment [] List.not_mem_nil List.not_mem_nil rest
        · exact .none (c :: rest)

/-- What `skipComment` has gone through belongs to the comment. -/
theorem gap_skipComment
    {body : Text} (hfeed : '\n' ∉ body) (hreturn : '\r' ∉ body) (text : Text) :
    Gap ('#' :: (body ++ text)) (skipComment ('#' :: (body ++ text)) text) := by
  match text with
  | [] =>
      rw [skipComment]
      exact .comment hfeed hreturn .source (.none [])
  | c :: rest =>
      unfold skipComment
      split
      · rename_i heq
        cases heq
      · rename_i heq
        cases heq
        exact .comment hfeed hreturn (.feed _) (.blank (by decide) (gap_skipBlank rest))
      · rename_i later heq
        cases heq
        exact .comment hfeed hreturn (.returnFeed _)
          (.blank (by decide) (.blank (by decide) (gap_skipBlank later)))
      · exact .none _
      · rename_i hnofeed _ hnoreturn heq
        cases heq
        have hfeed' : '\n' ∉ body ++ [c] := by
          simpa [hfeed] using Ne.symm hnofeed
        have hreturn' : '\r' ∉ body ++ [c] := by
          simpa [hreturn] using Ne.symm hnoreturn
        rw [List.append_cons]
        exact gap_skipComment hfeed' hreturn' rest

end

/-! ## A gap is skipped -/

theorem skipComment_append
    {body text : Text} (hfeed : '\n' ∉ body) (hreturn : '\r' ∉ body) (hend : AtLineEnd text)
    (start : Text) :
    skipComment start (body ++ text) = skipBlank text := by
  induction body with
  | nil =>
      cases hend with
      | source => rfl
      | feed rest => rfl
      | returnFeed rest => rfl
  | cons c body ih =>
      rw [List.mem_cons, not_or] at hfeed hreturn
      obtain ⟨hnofeed, hfeed⟩ := hfeed
      obtain ⟨hnoreturn, hreturn⟩ := hreturn
      rw [List.cons_append, skipComment]
      · exact ih hfeed hreturn
      · exact Ne.symm hnofeed
      · exact fun _ h _ => hnoreturn h.symm
      · exact Ne.symm hnoreturn

theorem Gap.skipBlank_eq {text rest : Text} (h : Gap text rest) :
    skipBlank text = skipBlank rest := by
  induction h with
  | none => rfl
  | blank hblank _ ih => rw [skipBlank, if_pos (isBlank_iff.mpr hblank), ih]
  | comment hfeed hreturn hend _ ih =>
      rw [skipBlank, if_neg (by decide), if_pos rfl, skipComment_append hfeed hreturn hend, ih]

theorem skipBlank_cons {c : Char} (hblank : c ∉ whiteSpace) (hsign : c ≠ '#') (rest : Text) :
    skipBlank (c :: rest) = c :: rest := by
  rw [skipBlank, if_neg fun h => hblank (isBlank_iff.mp h), if_neg hsign]

/-! ## The first character of a token -/

/-- The token may begin with this character. -/
def Token.Starts (c : Char) : Token → Prop
  | .text _ => c = '"'
  | .character _ => c = '\''
  | .name _ => isNameStart c = true
  | .count _ => c.isDigit = true
  | .sign s => c = s ∧ s ∈ punctuation
  | .dots => c = '.'
  | .suggestion _ => c = '@'
  | .max => c = 'm'

theorem Writes.exists_starts {token : Token} {written rest : Text} (h : Writes token written rest) :
    ∃ c tail, written = c :: tail ∧ token.Starts c := by
  cases h with
  | text _ => exact ⟨'"', _, rfl, rfl⟩
  | plain _ => exact ⟨'\'', _, rfl, rfl⟩
  | escape _ => exact ⟨'\'', _, rfl, rfl⟩
  | name hname =>
      obtain ⟨c, tail, hlist, hstart, -⟩ := hname.1
      exact ⟨c, tail, hlist, isNameStart_iff.mpr hstart⟩
  | @count n _ _ =>
      match hlist : Nat.toDigits 10 n with
      | [] => exact absurd hlist Nat.toDigits_ne_nil
      | c :: tail =>
          have hc : c ∈ Nat.toDigits 10 n := hlist ▸ List.mem_cons_self
          exact ⟨c, tail, rfl, Nat.isDigit_of_mem_toDigits (by decide) (by decide) hc⟩
  | sign hsign => exact ⟨_, _, rfl, rfl, hsign⟩
  | dots => exact ⟨'.', _, rfl, rfl⟩
  | suggestion _ => exact ⟨'@', _, rfl, rfl⟩
  | max => exact ⟨'m', _, rfl, rfl⟩

theorem Begins.exists_starts {token : Token} {text rest : Text} (h : Begins token text rest) :
    ∃ c tail, text = c :: tail ∧ token.Starts c := by
  obtain ⟨written, rfl, hwrites⟩ := h
  obtain ⟨c, tail, hwritten, hstarts⟩ := hwrites.exists_starts
  exact ⟨c, tail ++ rest, congrArg (· ++ rest) hwritten, hstarts⟩

theorem not_starts_of_mem_gap {c : Char} (hc : c ∈ '#' :: whiteSpace) :
    isNameStart c = false ∧ c.isDigit = false ∧
      c ∉ '"' :: '\'' :: '.' :: '@' :: 'm' :: punctuation := by
  simp only [whiteSpace, List.mem_cons, List.not_mem_nil, or_false] at hc
  obtain rfl | rfl | rfl | rfl | rfl | rfl := hc
  all_goals decide

/-- No token begins like a gap. -/
theorem Token.Starts.not_mem_gap {token : Token} {c : Char} (h : token.Starts c) :
    c ∉ '#' :: whiteSpace := by
  intro hc
  obtain ⟨hname, hdigit, hother⟩ := not_starts_of_mem_gap hc
  cases token with
  | name _ => exact Bool.false_ne_true (hname.symm.trans h)
  | count _ => exact Bool.false_ne_true (hdigit.symm.trans h)
  | sign s =>
      obtain ⟨rfl, hsign⟩ := h
      exact hother (List.mem_append_right ['"', '\'', '.', '@', 'm'] hsign)
  | _ =>
      obtain rfl := h
      exact hother (by decide)

theorem Begins.skipBlank_eq {token : Token} {text rest : Text} (h : Begins token text rest) :
    skipBlank text = text := by
  obtain ⟨c, tail, rfl, hstarts⟩ := h.exists_starts
  obtain ⟨hsign, hblank⟩ := not_or.mp (mt List.mem_cons.mpr hstarts.not_mem_gap)
  exact skipBlank_cons hblank hsign tail

/-! ## Tokens behind a gap -/

theorem spells_cons_iff {token : Token} {tokens : List Token} {text rest : Text} :
    Spells (token :: tokens) text rest ↔
      ∃ middle, Begins token (skipBlank text) middle ∧ Spells tokens middle rest := by
  constructor
  · intro h
    cases h with
    | cons hgap hwrites hspells =>
        rename_i written middle
        have hbegins : Begins token (written ++ middle) middle := ⟨written, rfl, hwrites⟩
        have hskip : skipBlank text = written ++ middle := by
          rw [hgap.skipBlank_eq, hbegins.skipBlank_eq]
        exact ⟨middle, hskip ▸ hbegins, hspells⟩
  · rintro ⟨middle, ⟨written, htext, hwrites⟩, hspells⟩
    exact .cons (htext ▸ gap_skipBlank text) hwrites hspells

theorem spells_singleton_iff {token : Token} {text rest : Text} :
    Spells [token] text rest ↔ Begins token (skipBlank text) rest := by
  rw [spells_cons_iff]
  constructor
  · rintro ⟨middle, hbegins, ⟨⟩⟩
    exact hbegins
  · intro h
    exact ⟨rest, h, .nil rest⟩

theorem spells_text_iff {value text rest : Text} :
    Spells [.text value] text rest ↔ readText (skipBlank text) = .found value rest := by
  rw [spells_singleton_iff, readText_eq_found_iff]

theorem spells_character_iff {c : Char} {text rest : Text} :
    Spells [.character c] text rest ↔ readCharacter (skipBlank text) = .found c rest := by
  rw [spells_singleton_iff, readCharacter_eq_found_iff]

theorem spells_name_iff {name : String} {text rest : Text} :
    Spells [.name name] text rest ↔ readName (skipBlank text) = .found name rest := by
  rw [spells_singleton_iff, readName_eq_found_iff]

theorem spells_count_iff {n : Nat} {text rest : Text} :
    Spells [.count n] text rest ↔ readCount (skipBlank text) = .found n rest := by
  rw [spells_singleton_iff, readCount_eq_found_iff]

theorem spells_sign_iff {c : Char} {text rest : Text} (hc : c ∈ punctuation) :
    Spells [.sign c] text rest ↔ skipBlank text = c :: rest := by
  rw [spells_singleton_iff, begins_sign_iff hc]

theorem spells_dots_iff {text rest : Text} :
    Spells [.dots] text rest ↔ skipBlank text = '.' :: '.' :: rest := by
  rw [spells_singleton_iff, begins_dots_iff]

theorem spells_suggestion_iff {name : String} {text rest : Text} :
    Spells [.suggestion name] text rest ↔
      ∃ tail, skipBlank text = '@' :: tail ∧ readName tail = .found name rest := by
  rw [spells_singleton_iff, begins_suggestion_iff]
  simp only [readName_eq_found_iff]

theorem spells_max_iff {text rest : Text} :
    Spells [.max] text rest ↔ skipBlank text = 'm' :: 'a' :: 'x' :: rest := by
  rw [spells_singleton_iff, begins_max_iff]

/-- Insisting on a sign. -/
theorem require_readSign_eq_ok_iff {sign : Char} {expected : List Expectation} {text rest : Text}
    {u : Unit} (hsign : sign ∈ punctuation) :
    (readSign sign (skipBlank text)).require expected = .ok (u, rest) ↔
      Spells [.sign sign] text rest := by
  rw [Outcome.require_eq_ok_iff, readSign_eq_found_iff, spells_sign_iff hsign]

/-- Insisting on a count. -/
theorem require_readCount_eq_ok_iff {n : Nat} {expected : List Expectation} {text rest : Text} :
    (readCount (skipBlank text)).require expected = .ok (n, rest) ↔
      Spells [.count n] text rest := by
  rw [Outcome.require_eq_ok_iff, spells_count_iff]

theorem skipBlank_skipBlank (text : Text) : skipBlank (skipBlank text) = skipBlank text :=
  (gap_skipBlank text).skipBlank_eq.symm

theorem Spells.skipBlank {token : Token} {tokens : List Token} {text rest : Text}
    (h : Spells (token :: tokens) text rest) :
    Spells (token :: tokens) (skipBlank text) rest := by
  rw [spells_cons_iff, ← skipBlank_skipBlank] at h
  exact spells_cons_iff.mpr h

/-! ## What comes next -/

/-- The text begins, blanks aside, with a character of this kind. -/
def Fronts (p : Char → Prop) (text : Text) : Prop :=
  ∃ c tail, skipBlank text = c :: tail ∧ p c

theorem Fronts.mono {p q : Char → Prop} {text : Text} (h : Fronts p text)
    (hpq : ∀ c, p c → q c) : Fronts q text := by
  obtain ⟨c, tail, htext, hc⟩ := h
  exact ⟨c, tail, htext, hpq c hc⟩

theorem Fronts.ne_cons {p : Char → Prop} {text tail : Text} {c : Char} (h : Fronts p text)
    (hc : ¬p c) : skipBlank text ≠ c :: tail := by
  obtain ⟨d, _, htext, hd⟩ := h
  intro heq
  rw [htext] at heq
  exact hc ((List.cons.inj heq).1 ▸ hd)

theorem Spells.fronts {token : Token} {tokens : List Token} {text rest : Text}
    (h : Spells (token :: tokens) text rest) : Fronts (token.Starts ·) text := by
  obtain ⟨middle, hbegins, -⟩ := spells_cons_iff.mp h
  obtain ⟨c, tail, htext, hstarts⟩ := hbegins.exists_starts
  exact ⟨c, tail, htext, hstarts⟩

theorem Spells.fronts_sign {sign : Char} {tokens : List Token} {text rest : Text}
    (h : Spells (.sign sign :: tokens) text rest) : Fronts (· = sign) text :=
  h.fronts.mono fun _ hc => hc.1

end GrammarRepair.Source
