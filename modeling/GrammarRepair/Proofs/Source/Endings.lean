import GrammarRepair.Proofs.Source.Joining

/-!
# Other endings

Of a source that was read up to some place, the text in front of that place can
be given another ending.  How far a name or a count reaches shows in the next
character, and a comment that went up to the old ending needs the end of a line.
A line feed serves for both, and so does the character that was there before,
unless it is white space.

Behind the new ending, tokens are written one to a line.  A token that was begun
in front of the place is ended first.
-/

namespace GrammarRepair.Source

/-! ## Texts that take the place of another -/

/-- The first text can stand where the second one did: it begins with a line
feed, or as the second one does, and then not with white space. -/
inductive Replaces : Text → Text → Prop
  | feed (later old : Text) : Replaces ('\n' :: later) old
  | same {c : Char} (hblank : c ∉ whiteSpace) (new old : Text) : Replaces (c :: new) (c :: old)

/-- Seen from farther in front, the next character is the same or a line feed. -/
theorem Replaces.head?_append {new old : Text} (h : Replaces new old) (front : Text) :
    (front ++ new).head? = (front ++ old).head? ∨ (front ++ new).head? = some '\n' := by
  cases front with
  | cons c front => exact .inl rfl
  | nil =>
      cases h with
      | feed later old => exact .inr rfl
      | same _ new old => exact .inl rfl

theorem AtLineEnd.replace {front new old : Text} (h : AtLineEnd (front ++ old))
    (hnew : Replaces new old) : AtLineEnd (front ++ new) := by
  -- Two characters tell whether a line ends, so `old` matters behind fewer than two.
  match front with
  | [] =>
      cases hnew with
      | feed later old => exact .feed later
      | same hblank new old =>
          cases h with
          | feed _ => exact absurd (by decide) hblank
          | returnFeed _ => exact absurd (by decide) hblank
  | [c] =>
      cases hnew with
      | feed later old =>
          generalize hold : [c] ++ old = text at h
          cases h with
          | source => simp at hold
          | feed rest => exact (List.cons.inj hold).1 ▸ .feed _
          | returnFeed rest => exact (List.cons.inj hold).1 ▸ .returnFeed _
      | same hblank new old =>
          cases h with
          | feed _ => exact .feed _
          | returnFeed _ => exact absurd (by decide) hblank
  | c :: d :: front =>
      cases h with
      | feed _ => exact .feed _
      | returnFeed _ => exact .returnFeed _

theorem Gap.exists_replace {text old : Text} (h : Gap text old) :
    ∃ gap, text = gap ++ old ∧ ∀ new, Replaces new old → Gap (gap ++ new) new := by
  induction h with
  | none old => exact ⟨[], rfl, fun new _ => .none new⟩
  | @blank c _ _ hblank _ ih =>
      obtain ⟨gap, rfl, hgap⟩ := ih
      exact ⟨c :: gap, rfl, fun new hnew => .blank hblank (hgap new hnew)⟩
  | @comment body _ _ hfeed hreturn hend _ ih =>
      obtain ⟨gap, rfl, hgap⟩ := ih
      refine ⟨'#' :: (body ++ gap), by simp, fun new hnew => ?_⟩
      rw [List.cons_append, List.append_assoc]
      exact .comment hfeed hreturn (hend.replace hnew) (hgap new hnew)

/-- What is spelled in front of a place is spelled there with every other ending. -/
theorem Spells.exists_replace {tokens : List Token} {text middle old : Text}
    (h : Spells tokens text middle) (hgap : Gap middle old) :
    ∃ front, text = front ++ old ∧ ∀ new, Replaces new old →
      ∃ middle, Spells tokens (front ++ new) middle ∧ Gap middle new := by
  induction h with
  | nil text =>
      obtain ⟨gap, rfl, hnewgap⟩ := hgap.exists_replace
      exact ⟨gap, rfl, fun new hnew => ⟨_, .nil _, hnewgap new hnew⟩⟩
  | @cons _ _ _ written _ _ hfirst hwrites _ ih =>
      obtain ⟨front, rfl, hspells⟩ := ih hgap
      obtain ⟨gap, rfl, hnewgap⟩ := hfirst.exists_replace
      obtain ⟨c, tail, rfl, hstarts⟩ := hwrites.exists_starts
      have hblank : c ∉ whiteSpace := fun hc => hstarts.not_mem_gap (List.mem_cons_of_mem _ hc)
      refine ⟨gap ++ (c :: tail ++ front), by simp, fun new hnew => ?_⟩
      obtain ⟨middle, hspells, hgap⟩ := hspells new hnew
      have hbefore := hnewgap (c :: tail ++ (front ++ new)) (.same hblank _ _)
      refine ⟨middle, ?_, hgap⟩
      rw [List.append_assoc, List.append_assoc]
      exact .cons hbefore (hwrites.replace (hnew.head?_append front)) hspells

/-! ## Tokens that are still to be written -/

/-- The text is the beginning of a way to write the token, given that its line
ends behind it. -/
def Token.OpenedBy (token : Token) (part : Text) : Prop :=
  ∃ last, ∀ later, Writes token (part ++ last) ('\n' :: later)

/-- The token can be written on a line. -/
def Token.Writable (token : Token) : Prop :=
  token.OpenedBy []

theorem longest_isName_feed {name : Text} (h : IsName name) (later : Text) :
    Longest IsName name ('\n' :: later) :=
  longest_isName_iff.mpr ⟨h, by simp [isNamePart]⟩

theorem Token.writable_sign {c : Char} (hc : c ∈ punctuation) : (Token.sign c).Writable :=
  ⟨[c], fun _ => .sign hc⟩

theorem Token.writable_count_one : (Token.count 1).Writable :=
  ⟨['1'], fun _ => .count (by decide) ((longest_isDecimal_iff Nat.one_pos).mpr (by simp))⟩

theorem Token.opened_character {c : Char} (hc : c ≠ '\\') :
    (Token.character c).OpenedBy ['\'', c] :=
  ⟨['\''], fun _ => .plain hc⟩

theorem Token.opened_character_escape {e c : Char} (hescape : Escape e c) :
    (Token.character c).OpenedBy ['\'', '\\', e] :=
  ⟨['\''], fun _ => .escape hescape⟩

theorem Token.opened_character_backslash : (Token.character '\n').OpenedBy ['\'', '\\'] :=
  ⟨['n', '\''], fun _ => .escape .lineFeed⟩

theorem Token.opened_character_quote : (Token.character 'a').OpenedBy ['\''] :=
  ⟨['a', '\''], fun _ => .plain (by decide)⟩

theorem Token.opened_suggestion : (Token.suggestion "a").OpenedBy ['@'] :=
  ⟨['a'], fun later => .suggestion (longest_isName_feed ⟨'a', [], rfl, by decide, by simp⟩ later)⟩

theorem Quotes.append {body value body' value' : Text} (h : Quotes body value)
    (h' : Quotes body' value') : Quotes (body ++ body') (value ++ value') := by
  induction h with
  | nil => exact h'
  | plain hquote hbackslash _ ih => exact .plain hquote hbackslash ih
  | escape hescape _ ih => exact .escape hescape ih

theorem Token.opened_text_backslash {body value : Text} (h : Quotes body value) :
    (Token.text (value ++ ['\n'])).OpenedBy ('"' :: body ++ ['\\']) := by
  have hbody : Quotes (body ++ ['\\', 'n']) (value ++ ['\n']) := h.append (.escape .lineFeed .nil)
  refine ⟨['n', '"'], fun later => ?_⟩
  have hwrites : Writes (.text (value ++ ['\n'])) ('"' :: (body ++ ['\\', 'n'] ++ ['"']))
      ('\n' :: later) := .text hbody
  simpa using hwrites

/-- Tokens that can be written are spelled one to a line. -/
theorem exists_spells_of_writable {tokens : List Token} (h : ∀ token ∈ tokens, token.Writable) :
    ∃ completion, Spells tokens ('\n' :: completion) ['\n'] := by
  induction tokens with
  | nil => exact ⟨[], .nil _⟩
  | cons token tokens ih =>
      rw [List.forall_mem_cons] at h
      obtain ⟨written, hwrites⟩ := h.1
      obtain ⟨completion, hspells⟩ := ih h.2
      exact ⟨written ++ '\n' :: completion,
        .cons (.blank (by decide) (.none _)) (hwrites completion) hspells⟩

end GrammarRepair.Source
