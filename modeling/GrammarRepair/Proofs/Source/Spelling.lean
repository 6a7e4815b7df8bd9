import GrammarRepair.Text

/-!
# Tokens and their spelling

What a source says is a list of tokens.  This file describes, without reading
anything, which texts spell which tokens: how each token is written, what may
stand between two of them, and how far names and counts reach.

Tokens need no space between them, so a name or a count could be taken to end
too early.  It never does: what is written for it is the longest beginning of
the text that is a name, or a count, at all.
-/

namespace GrammarRepair.Source

/-- A piece of a source. -/
inductive Token where
  /-- A text in double quotes. -/
  | text (value : Text)
  /-- A character in single quotes. -/
  | character (value : Char)
  | name (name : String)
  | count (value : Nat)
  /-- A sign of punctuation. -/
  | sign (c : Char)
  /-- The two dots between the ends of a range. -/
  | dots
  /-- The name of a suggestion, with the at sign in front. -/
  | suggestion (name : String)
  /-- The word that announces a ceiling. -/
  | max
deriving DecidableEq, Repr

/-! ## Gaps -/

/-- White space: space, tab, line feed, form feed and carriage return. -/
def whiteSpace : List Char :=
  [' ', '\t', '\n', '\x0c', '\r']

/-- A line, or the source, ends in front of the text. -/
inductive AtLineEnd : Text → Prop
  | source : AtLineEnd []
  | feed (rest : Text) : AtLineEnd ('\n' :: rest)
  | returnFeed (rest : Text) : AtLineEnd ('\r' :: '\n' :: rest)

/-- The second text is what is left of the first behind white space and
comments, as many as one likes.  A comment goes up to the end of its line and
has no carriage return inside. -/
inductive Gap : Text → Text → Prop
  | none (text : Text) : Gap text text
  | blank {c : Char} {text rest : Text} (hblank : c ∈ whiteSpace) (hgap : Gap text rest) :
      Gap (c :: text) rest
  | comment {body text rest : Text} (hfeed : '\n' ∉ body) (hreturn : '\r' ∉ body)
      (hend : AtLineEnd text) (hgap : Gap text rest) :
      Gap ('#' :: (body ++ text)) rest

theorem Gap.trans {text middle rest : Text} (h : Gap text middle) (h' : Gap middle rest) :
    Gap text rest := by
  induction h with
  | none => exact h'
  | blank hblank _ ih => exact .blank hblank (ih h')
  | comment hfeed hreturn hend _ ih => exact .comment hfeed hreturn hend (ih h')

/-! ## Single tokens -/

/-- The character that stands behind a backslash, and the one it means. -/
inductive Escape : Char → Char → Prop
  | doubleQuote : Escape '"' '"'
  | singleQuote : Escape '\'' '\''
  | backslash : Escape '\\' '\\'
  | lineFeed : Escape 'n' '\n'
  | tab : Escape 't' '\t'

/-- What stands between double quotes, and the text it means. -/
inductive Quotes : Text → Text → Prop
  | nil : Quotes [] []
  | plain {c : Char} {body value : Text} (hquote : c ≠ '"') (hbackslash : c ≠ '\\')
      (hbody : Quotes body value) : Quotes (c :: body) (c :: value)
  | escape {e c : Char} {body value : Text} (hescape : Escape e c)
      (hbody : Quotes body value) : Quotes ('\\' :: e :: body) (c :: value)

/-- A letter or an underscore, then letters, digits, underscores and hyphens. -/
def IsName (text : Text) : Prop :=
  ∃ c rest, text = c :: rest ∧ (c.isAlpha ∨ c = '_') ∧
    ∀ d ∈ rest, d.isAlphanum ∨ d = '_' ∨ d = '-'

/-- The digits of a number in decimal: none of them is a zero in front. -/
def IsDecimal (text : Text) : Prop :=
  ∃ n, text = Nat.toDigits 10 n

/-- Of all beginnings of the text that have this shape, the one that leaves
`rest` is the longest. -/
def Longest (shape : Text → Prop) (written rest : Text) : Prop :=
  shape written ∧ ∀ more, more <+: rest → shape (written ++ more) → more = []

/-- The signs of punctuation. -/
def punctuation : List Char :=
  [';', '=', '|', '(', ')', '?', '*', '+', '{', '}', ',']

/-- How a token is written in front of a text.  In single quotes, whatever
is not a backslash stands for itself. -/
inductive Writes : Token → Text → Text → Prop
  | text {value body rest : Text} (hbody : Quotes body value) :
      Writes (.text value) ('"' :: (body ++ ['"'])) rest
  | plain {c : Char} {rest : Text} (hbackslash : c ≠ '\\') :
      Writes (.character c) ['\'', c, '\''] rest
  | escape {e c : Char} {rest : Text} (hescape : Escape e c) :
      Writes (.character c) ['\'', '\\', e, '\''] rest
  | name {name : String} {rest : Text} (hname : Longest IsName name.toList rest) :
      Writes (.name name) name.toList rest
  | count {n : Nat} {rest : Text} (hsize : n < UInt32.size)
      (hcount : Longest IsDecimal (Nat.toDigits 10 n) rest) :
      Writes (.count n) (Nat.toDigits 10 n) rest
  | sign {c : Char} {rest : Text} (hsign : c ∈ punctuation) : Writes (.sign c) [c] rest
  | dots {rest : Text} : Writes .dots ['.', '.'] rest
  | suggestion {name : String} {rest : Text} (hname : Longest IsName name.toList rest) :
      Writes (.suggestion name) ('@' :: name.toList) rest
  | max {rest : Text} : Writes .max ['m', 'a', 'x'] rest

/-- The text begins with the token, without a gap, and `rest` is behind it. -/
def Begins (token : Token) (text rest : Text) : Prop :=
  ∃ written, text = written ++ rest ∧ Writes token written rest

theorem begins_name_iff {name : String} {text rest : Text} :
    Begins (.name name) text rest ↔
      text = name.toList ++ rest ∧ Longest IsName name.toList rest := by
  constructor
  · rintro ⟨written, rfl, ⟨⟩⟩
    exact ⟨rfl, ‹_›⟩
  · rintro ⟨rfl, hname⟩
    exact ⟨_, rfl, .name hname⟩

theorem begins_count_iff {n : Nat} {text rest : Text} :
    Begins (.count n) text rest ↔
      text = Nat.toDigits 10 n ++ rest ∧ n < UInt32.size ∧
        Longest IsDecimal (Nat.toDigits 10 n) rest := by
  constructor
  · rintro ⟨written, rfl, ⟨⟩⟩
    exact ⟨rfl, ‹_›, ‹_›⟩
  · rintro ⟨rfl, hsize, hcount⟩
    exact ⟨_, rfl, .count hsize hcount⟩

theorem begins_suggestion_iff {name : String} {text rest : Text} :
    Begins (.suggestion name) text rest ↔
      ∃ tail, text = '@' :: tail ∧ Begins (.name name) tail rest := by
  constructor
  · rintro ⟨written, rfl, ⟨⟩⟩
    exact ⟨name.toList ++ rest, rfl, begins_name_iff.mpr ⟨rfl, ‹_›⟩⟩
  · rintro ⟨tail, rfl, hname⟩
    obtain ⟨rfl, hlongest⟩ := begins_name_iff.mp hname
    exact ⟨'@' :: name.toList, rfl, .suggestion hlongest⟩

theorem begins_sign_iff {c : Char} {text rest : Text} (hc : c ∈ punctuation) :
    Begins (.sign c) text rest ↔ text = c :: rest := by
  constructor
  · rintro ⟨written, rfl, ⟨⟩⟩
    rfl
  · rintro rfl
    exact ⟨[c], rfl, .sign hc⟩

theorem begins_dots_iff {text rest : Text} :
    Begins .dots text rest ↔ text = '.' :: '.' :: rest := by
  constructor
  · rintro ⟨written, rfl, ⟨⟩⟩
    rfl
  · rintro rfl
    exact ⟨['.', '.'], rfl, .dots⟩

theorem begins_max_iff {text rest : Text} :
    Begins .max text rest ↔ text = 'm' :: 'a' :: 'x' :: rest := by
  constructor
  · rintro ⟨written, rfl, ⟨⟩⟩
    rfl
  · rintro rfl
    exact ⟨['m', 'a', 'x'], rfl, .max⟩

/-! ## Lists of tokens -/

/-- The tokens are spelled at the beginning of the first text, with gaps in
front of them, and the second text is what is left behind the last one. -/
inductive Spells : List Token → Text → Text → Prop
  | nil (text : Text) : Spells [] text text
  | cons {token : Token} {tokens : List Token} {text written middle rest : Text}
      (hgap : Gap text (written ++ middle)) (hwrites : Writes token written middle)
      (hspells : Spells tokens middle rest) :
      Spells (token :: tokens) text rest

theorem Spells.append
    {first second : List Token} {text middle rest : Text}
    (hfirst : Spells first text middle) (hsecond : Spells second middle rest) :
    Spells (first ++ second) text rest := by
  induction hfirst with
  | nil => exact hsecond
  | cons hgap hwrites _ ih => exact .cons hgap hwrites (ih hsecond)

theorem Spells.exists_of_append
    {first second : List Token} {text rest : Text} (h : Spells (first ++ second) text rest) :
    ∃ middle, Spells first text middle ∧ Spells second middle rest := by
  induction first generalizing text with
  | nil => exact ⟨text, .nil text, h⟩
  | cons token first ih =>
      cases h with
      | cons hgap hwrites hspells =>
          obtain ⟨middle, hfirst, hsecond⟩ := ih hspells
          exact ⟨middle, .cons hgap hwrites hfirst, hsecond⟩

theorem Spells.exists_of_cons
    {token : Token} {tokens : List Token} {text rest : Text}
    (h : Spells (token :: tokens) text rest) :
    ∃ middle, Spells [token] text middle ∧ Spells tokens middle rest :=
  @Spells.exists_of_append [token] tokens text rest h

theorem Spells.eq_of_nil {text rest : Text} (h : Spells [] text rest) : text = rest := by
  cases h
  rfl

theorem Spells.behind_gap
    {token : Token} {tokens : List Token} {text middle rest : Text} (hgap : Gap text middle)
    (h : Spells (token :: tokens) middle rest) :
    Spells (token :: tokens) text rest := by
  cases h with
  | cons hfirst hwrites hspells => exact .cons (hgap.trans hfirst) hwrites hspells

end GrammarRepair.Source
