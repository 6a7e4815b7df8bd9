import GrammarRepair.Proofs.Source.Exactness

/-!
# Sources one after the other

A source, a line feed and another source make a source that says what both say.
Nothing that was read in the first one is read differently for the text behind
it.  How far a name or a count reaches shows in the next character, and a line
feed ends both; a comment that went up to the end of the source goes up to the
end of its line.  So every token is written in front of the joined rest as it
was, and every gap stays one.
-/

namespace GrammarRepair.Source

/-! ## What stands behind a token -/

theorem forall_head?_eq_false {p : Char → Bool} {new old : Text} (hfeed : p '\n' = false)
    (hnew : new.head? = old.head? ∨ new.head? = some '\n') (hold : ∀ d ∈ old.head?, p d = false) :
    ∀ d ∈ new.head?, p d = false := by
  obtain hsame | hnew := hnew
  · rwa [hsame]
  · intro d hd
    rw [hnew] at hd
    exact Option.some.inj hd ▸ hfeed

theorem Writes.replace {token : Token} {written new old : Text} (h : Writes token written old)
    (hnew : new.head? = old.head? ∨ new.head? = some '\n') : Writes token written new := by
  have hname {name : Text} (hname : Longest IsName name old) : Longest IsName name new := by
    rw [longest_isName_iff] at hname ⊢
    exact ⟨hname.1, forall_head?_eq_false (by decide) hnew hname.2⟩
  cases h with
  | text hbody => exact .text hbody
  | plain hbackslash => exact .plain hbackslash
  | escape hescape => exact .escape hescape
  | name hlongest => exact .name (hname hlongest)
  | @count n _ hsize hcount =>
      obtain rfl | hpos := Nat.eq_zero_or_pos n
      · exact .count hsize (longest_isDecimal_zero new)
      · rw [longest_isDecimal_iff hpos] at hcount
        exact .count hsize
          ((longest_isDecimal_iff hpos).mpr (forall_head?_eq_false (by decide) hnew hcount))
  | sign hsign => exact .sign hsign
  | dots => exact .dots
  | suggestion hlongest => exact .suggestion (hname hlongest)
  | max => exact .max

theorem Writes.before_feed
    {token : Token} {written rest : Text} (h : Writes token written rest) (later : Text) :
    Writes token written (rest ++ '\n' :: later) := by
  cases rest with
  | nil => exact h.replace (.inr rfl)
  | cons c rest => exact h.replace (.inl rfl)

/-! ## A line feed and more behind a gap -/

theorem AtLineEnd.before_feed {text : Text} (h : AtLineEnd text) (later : Text) :
    AtLineEnd (text ++ '\n' :: later) := by
  cases h with
  | source => exact .feed later
  | feed rest => exact .feed _
  | returnFeed rest => exact .returnFeed _

theorem Gap.before_feed {text rest : Text} (h : Gap text rest) (later : Text) :
    Gap (text ++ '\n' :: later) (rest ++ '\n' :: later) := by
  induction h with
  | none text => exact .none _
  | blank hblank _ ih => exact .blank hblank ih
  | comment hfeed hreturn hend _ ih =>
      rw [List.cons_append, List.append_assoc]
      exact .comment hfeed hreturn (hend.before_feed later) ih

/-! ## Joined sources -/

theorem Spells.before_feed
    {tokens : List Token} {text rest : Text} (h : Spells tokens text rest) (later : Text) :
    Spells tokens (text ++ '\n' :: later) (rest ++ '\n' :: later) := by
  induction h with
  | nil => exact .nil _
  | cons hgap hwrites _ ih =>
      have hgap := hgap.before_feed later
      rw [List.append_assoc] at hgap
      exact .cons hgap (hwrites.before_feed later) ih

/-- A gap in front of the last tokens of a source belongs to them, or to the end
of the source if there are none. -/
theorem Spells.exists_behind_gap {tokens : List Token} {text middle rest : Text}
    (hgap : Gap text middle) (h : Spells tokens middle rest) (hend : Gap rest []) :
    ∃ last, Spells tokens text last ∧ Gap last [] := by
  cases tokens with
  | nil =>
      obtain rfl := h.eq_of_nil
      exact ⟨text, .nil text, hgap.trans hend⟩
  | cons token tokens => exact ⟨rest, h.behind_gap hgap, hend⟩

theorem SourcePhrase.append
    {tokens tokens' : List Token} {definitions definitions' : List Definition}
    (h : SourcePhrase tokens definitions) (h' : SourcePhrase tokens' definitions') :
    SourcePhrase (tokens ++ tokens') (definitions ++ definitions') := by
  induction h with
  | nil => exact h'
  | cons hdefinition _ ih =>
      rw [List.append_assoc]
      exact .cons hdefinition ih

/-- A source, a line feed and another source. -/
def joined (first second : Text) : Text :=
  first ++ '\n' :: second

theorem IsSpelling.joined
    {first second : Text} {definitions definitions' : List Definition}
    (h : IsSpelling first definitions) (h' : IsSpelling second definitions') :
    IsSpelling (joined first second) (definitions ++ definitions') := by
  obtain ⟨rest, ⟨tokens, hphrase, hspells⟩, hend⟩ := h
  obtain ⟨rest', ⟨tokens', hphrase', hspells'⟩, hend'⟩ := h'
  have hgap : Gap (rest ++ '\n' :: second) second :=
    (hend.before_feed second).trans (.blank (by decide) (.none second))
  have hfirst := hspells.before_feed second
  obtain ⟨last, hsecond, hend⟩ := hspells'.exists_behind_gap hgap hend'
  exact ⟨last, ⟨_, hphrase.append hphrase', hfirst.append hsecond⟩, hend⟩

/-- What both sources are read as, the joined source is read as. -/
theorem read_joined
    {first second : Text} {definitions definitions' : List Definition}
    (h : read first = .ok definitions) (h' : read second = .ok definitions') :
    read (joined first second) = .ok (definitions ++ definitions') :=
  read_eq_ok_iff.mpr ((read_eq_ok_iff.mp h).joined (read_eq_ok_iff.mp h'))

end GrammarRepair.Source
