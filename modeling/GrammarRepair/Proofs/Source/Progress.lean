import GrammarRepair.Proofs.Source.Gaps
import GrammarRepair.Source.Reader

/-!
# Reading uses up the source

Many readers succeed on nothing: an expression may be empty, and so may a gap.
What is read again and again is not among them.  An element of a repetition uses
up a character whenever it is found, since an item has an atom, a branch has its
bar and a definition has its name.

So nothing is lost when readers get a limit.  Here is a reader that calls itself
only up to a depth, repeats only so often, and stops where an element of a
repetition is found without using up anything.  With a limit beyond the length of
the text it does what the unlimited one does.
-/

namespace GrammarRepair.Source

variable {α β : Type} {text rest : Text}

/-! ## White space and comments, piece by piece -/

/-- What is left from the end of the line on, unless a carriage return stands
alone in front of it. -/
def lineEnd? : Text → Option Text
  | [] => some []
  | '\n' :: rest => some ('\n' :: rest)
  | '\r' :: '\n' :: rest => some ('\r' :: '\n' :: rest)
  | '\r' :: _ => none
  | _ :: rest => lineEnd? rest

/-- A piece of a gap: as much white space as there is, or a comment. -/
def readPiece : Text → Outcome Unit
  | [] => .missing []
  | c :: rest =>
      if isBlank c then .found () (rest.dropWhile isBlank)
      else if c = '#' then
        match lineEnd? rest with
        | some last => .found () last
        | none => .missing (c :: rest)
      else .missing (c :: rest)

theorem exists_body_of_lineEnd? {last : Text} (h : lineEnd? text = some last) :
    ∃ body, text = body ++ last ∧ '\n' ∉ body ∧ '\r' ∉ body ∧ AtLineEnd last := by
  fun_induction lineEnd? text with
  | case1 =>
      obtain rfl := Option.some.inj h
      exact ⟨[], rfl, by simp, by simp, .source⟩
  | case2 rest =>
      obtain rfl := Option.some.inj h
      exact ⟨[], rfl, by simp, by simp, .feed rest⟩
  | case3 rest =>
      obtain rfl := Option.some.inj h
      exact ⟨[], rfl, by simp, by simp, .returnFeed rest⟩
  | case4 => simp at h
  | case5 c rest hfeed _ hreturn ih =>
      obtain ⟨body, rfl, hbody, hbody', hend⟩ := ih h
      refine ⟨c :: body, rfl, ?_, ?_, hend⟩
      · simpa [hbody] using Ne.symm hfeed
      · simpa [hbody'] using Ne.symm hreturn

/-- What has no end is no comment, and is left as it is. -/
theorem skipComment_of_lineEnd? (start : Text) (h : lineEnd? text = none) :
    skipComment start text = start := by
  fun_induction lineEnd? text with
  | case1 => simp at h
  | case2 rest => simp at h
  | case3 rest => simp at h
  | case4 rest hfeed => rw [skipComment]; exact hfeed
  | case5 c rest hfeed hreturnFeed hreturn ih =>
      rw [skipComment]
      · exact ih h
      · exact hfeed
      · exact hreturnFeed
      · exact hreturn

theorem gap_dropWhile (text : Text) : Gap text (text.dropWhile isBlank) := by
  induction text with
  | nil => exact .none []
  | cons c rest ih =>
      rw [List.dropWhile_cons]
      split
      · rename_i hblank
        exact .blank (isBlank_iff.mp hblank) ih
      · exact .none _

theorem gap_of_readPiece (h : readPiece text = .found () rest) : Gap text rest := by
  cases text with
  | nil => simp [readPiece] at h
  | cons c text =>
      rw [readPiece] at h
      split at h
      · rename_i hblank
        obtain ⟨-, rfl⟩ := Outcome.found.inj h
        exact .blank (isBlank_iff.mp hblank) (gap_dropWhile text)
      · split at h
        · rename_i hsign
          split at h
          · rename_i last hlast
            obtain ⟨-, rfl⟩ := Outcome.found.inj h
            obtain ⟨body, rfl, hfeed, hreturn, hend⟩ := exists_body_of_lineEnd? hlast
            exact hsign ▸ .comment hfeed hreturn hend (.none _)
          · simp at h
        · simp at h

theorem skipBlank_of_readPiece (h : readPiece text = .missing rest) : skipBlank text = text := by
  cases text with
  | nil => rfl
  | cons c text =>
      rw [readPiece] at h
      split at h
      · simp at h
      · rename_i hblank
        rw [skipBlank, if_neg hblank]
        split at h
        · rename_i hsign
          split at h
          · simp at h
          · rename_i hlast
            rw [if_pos hsign, skipComment_of_lineEnd? _ hlast]
        · rename_i hsign
          rw [if_neg hsign]

theorem readPiece_progresses (text : Text) : (readPiece text).Progresses text := by
  cases text with
  | nil => exact List.suffix_rfl
  | cons c rest =>
      unfold readPiece
      dsimp only
      split
      · exact dropWhile_progresses () isBlank c rest
      · split
        · split
          · rename_i last hlast
            obtain ⟨body, rfl, -, -, -⟩ := exists_body_of_lineEnd? hlast
            exact ⟨(List.suffix_append body last).trans (List.suffix_cons c _),
              Nat.lt_succ_of_le (List.suffix_append body last).length_le⟩
          · exact List.suffix_rfl
        · exact List.suffix_rfl

theorem readPiece_ne_stuck (text : Text) (failure : Stuck) : readPiece text ≠ .stuck failure := by
  cases text with
  | nil => simp [readPiece]
  | cons c rest =>
      unfold readPiece
      dsimp only
      split
      · simp
      · split
        · split
          · simp
          · simp
        · simp

/-! ## Every reader leaves an end of the text -/

/-- What is left behind something that is found. -/
def Outcome.rest? : Outcome α → Option Text
  | .found _ rest => some rest
  | _ => none

/-- What is left behind something that is read. -/
def Reading.rest? : Reading α → Option Text
  | .ok (_, rest) => some rest
  | .error _ => none

theorem Outcome.Progresses.of_rest? {outcome : Outcome α} (h : outcome.Progresses text)
    (hrest : outcome.rest? = some rest) : rest <:+ text ∧ rest.length < text.length := by
  cases outcome with
  | found value later =>
      obtain rfl := Option.some.inj hrest
      exact h
  | missing later => simp [rest?] at hrest
  | stuck failure => simp [rest?] at hrest

theorem Reading.Keeps.of_rest? {reading : Reading α} (h : Reading.Keeps text reading)
    (hrest : reading.rest? = some rest) : rest <:+ text := by
  cases reading with
  | ok read =>
      obtain rfl := Option.some.inj hrest
      exact h
  | error failure => simp [rest?] at hrest

/-- A further branch, with the bar in front. -/
def readBranch (text : Text) : Outcome Expr :=
  match skipBlank text with
  | '|' :: inner => ((readItems inner).mapValue Expr.ofItems).toOutcome
  | _ => .missing text

theorem readBranch_of_bar {inner : Text} (h : skipBlank text = '|' :: inner) :
    readBranch text = ((readItems inner).mapValue Expr.ofItems).toOutcome := by
  rw [readBranch, h]
  rfl

theorem readBranch_of_ne (h : ∀ inner, skipBlank text ≠ '|' :: inner) :
    readBranch text = .missing text := by
  unfold readBranch
  split
  · rename_i inner htext
    exact absurd htext (h inner)
  · rfl

theorem readBranch_progresses (text : Text) : (readBranch text).Progresses text := by
  unfold readBranch
  split
  · rename_i inner htext
    have hinner := behind_sign htext
    exact ((readItems_keeps inner).mapValue Expr.ofItems).toOutcome hinner.1 hinner.2
  · exact List.suffix_rfl

/-- The parts of a source that have a reader. -/
inductive Part where
  | gap | piece | name | count | escape | quoted | character | range | atom | bounds | quantifier
  | suggestion | item | items | branch | branches | expression | ceiling | definition
  | definitions | source
deriving DecidableEq, Repr

namespace Part

/-- What the reader of a part leaves of the text, if it succeeds. -/
def rest? (text : Text) : Part → Option Text
  | gap => some (skipBlank text)
  | piece => (readPiece text).rest?
  | name => (readName text).rest?
  | count => (readCount text).rest?
  | escape => (readEscape text).rest?
  | quoted => (readText text).rest?
  | character => (readCharacter text).rest?
  | range => (readRange text).rest?
  | atom => (readAtom text).rest?
  | bounds => (readBounds text).rest?
  | quantifier => (readQuantifier text).rest?
  | suggestion => (readSuggestion text).rest?
  | item => (readItem text).rest?
  | items => (readItems text).rest?
  | branch => (readBranch text).rest?
  | branches => (readBranches text).rest?
  | expression => (readExpression text).rest?
  | ceiling => (readCeiling text).rest?
  | definition => (readDefinition text).rest?
  | definitions => (readDefinitions text).rest?
  | source => (readDefinitions text).rest?.map skipBlank

/-- The parts that are read again and again. -/
def elements : List Part :=
  [piece, item, branch, definition]

/-- Every reader leaves an end of the text, and those of elements a shorter one. -/
theorem suffix_and_shorter {part : Part} (h : part.rest? text = some rest) :
    rest <:+ text ∧ (part ∈ elements → rest.length < text.length) := by
  have hfound {α : Type} {outcome : Outcome α} (hprogresses : outcome.Progresses text)
      (hrest : outcome.rest? = some rest) :
      rest <:+ text ∧ (part ∈ elements → rest.length < text.length) :=
    ⟨(hprogresses.of_rest? hrest).1, fun _ => (hprogresses.of_rest? hrest).2⟩
  have hread (hnone : part ∉ elements) (hsuffix : rest <:+ text) :
      rest <:+ text ∧ (part ∈ elements → rest.length < text.length) :=
    ⟨hsuffix, fun hmem => absurd hmem hnone⟩
  cases part with
  | gap => exact hread (by decide) (Option.some.inj h ▸ skipBlank_suffix text)
  | piece => exact hfound (readPiece_progresses text) h
  | name => exact hfound (readName_progresses text) h
  | count => exact hfound (readCount_progresses text) h
  | escape => exact hfound (readEscape_progresses text) h
  | quoted => exact hfound (readText_progresses text) h
  | character => exact hfound (readCharacter_progresses text) h
  | range => exact hfound (readRange_progresses text) h
  | atom => exact hfound (readAtom_progresses text) h
  | bounds => exact hread (by decide) ((readBounds_keeps text).of_rest? h)
  | quantifier => exact hread (by decide) ((readQuantifier_keeps text).of_rest? h)
  | suggestion => exact hread (by decide) ((readSuggestion_keeps text).of_rest? h)
  | item => exact hfound (readItem_progresses text) h
  | items => exact hread (by decide) ((readItems_keeps text).of_rest? h)
  | branch => exact hfound (readBranch_progresses text) h
  | branches => exact hread (by decide) ((readBranches_keeps text).of_rest? h)
  | expression => exact hread (by decide) ((readExpression_keeps text).of_rest? h)
  | ceiling => exact hread (by decide) ((readCeiling_keeps text).of_rest? h)
  | definition => exact hfound (readDefinition_progresses text) h
  | definitions => exact hread (by decide) ((readDefinitions_keeps text).of_rest? h)
  | source =>
      obtain ⟨last, hlast, rfl⟩ := Option.map_eq_some_iff.mp h
      exact hread (by decide)
        ((skipBlank_suffix last).trans ((readDefinitions_keeps text).of_rest? hlast))

end Part

/-! ## Repetition with a limit -/

/-- What reading with a limit comes to. -/
inductive Attempt (α : Type) where
  | done (value : α)
  /-- An element of a repetition was found, and nothing was used up. -/
  | idle
  /-- The limit was reached. -/
  | exceeded
deriving Repr

namespace Attempt

/-- Go on with what was done. -/
def bind (next : α → Attempt β) : Attempt α → Attempt β
  | done value => next value
  | idle => idle
  | exceeded => exceeded

/-- Change what was done. -/
def map (f : α → β) : Attempt α → Attempt β :=
  bind fun value => done (f value)

end Attempt

/-- Read elements until one is missing, fewer than `limit`. -/
def repeating (element : Text → Attempt (Outcome α)) : Nat → Text → Attempt (Reading (List α))
  | 0, _ => .exceeded
  | limit + 1, text =>
      (element text).bind fun outcome =>
        match outcome with
        | .found value rest =>
            if rest.length = text.length then .idle
            else (repeating element limit rest).map (Reading.mapValue (value :: ·))
        | .missing _ => .done (.ok ([], text))
        | .stuck failure => .done (.error failure)

/-- The second reader reads what the first one does, as often as that is there. -/
def Repeats (one : Text → Outcome α) (many : Text → Reading (List α)) : Prop :=
  ∀ text, many text =
    match one text with
    | .found value rest => (many rest).mapValue (value :: ·)
    | .missing _ => .ok ([], text)
    | .stuck failure => .error failure

theorem repeating_of_found {element : Text → Attempt (Outcome α)} {limit : Nat} {value : α}
    (h : element text = .done (.found value rest)) (hless : rest.length < text.length) :
    repeating element (limit + 1) text =
      (repeating element limit rest).map (Reading.mapValue (value :: ·)) := by
  rw [repeating, h]
  exact if_neg (Nat.ne_of_lt hless)

/-- If elements use something up, and attempts at them are done, then there is a
limit to the repetition. -/
theorem repeating_eq_done {element : Text → Attempt (Outcome α)} {one : Text → Outcome α}
    {many : Text → Reading (List α)} {limit : Nat} (hmany : Repeats one many)
    (hone : ∀ text, (one text).Progresses text)
    (helement : ∀ later, later.length ≤ text.length → element later = .done (one later))
    (hlimit : text.length < limit) : repeating element limit text = .done (many text) := by
  induction limit generalizing text with
  | zero => exact absurd hlimit (Nat.not_lt_zero _)
  | succ limit ih =>
      have htext := helement text (Nat.le_refl _)
      rw [hmany text]
      cases hread : one text with
      | found value rest =>
          rw [hread] at htext
          have hless := (hone text).length_lt hread
          have hrest : repeating element limit rest = .done (many rest) := by
            refine ih (fun later hlater => helement later ?_) (by omega)
            exact Nat.le_trans hlater (Nat.le_of_lt hless)
          rw [repeating_of_found htext hless, hrest]
          rfl
      | missing later =>
          rw [repeating, htext, hread]
          rfl
      | stuck failure =>
          rw [repeating, htext, hread]
          rfl

/-- The limit shows where an element is found and uses up nothing. -/
example : repeating (fun text => .done (.found () text)) 5 ['a'] = .idle := rfl

/-! ## Readers with a limit

A gap is skipped by a repetition of its own, which is done for every text.  So the
readers of other parts may skip gaps at once. -/

/-- As many pieces of a gap as there are. -/
def pieces (text : Text) : List Unit :=
  match _h : readPiece text with
  | .found () rest => () :: pieces rest
  | _ => []
termination_by text.length
decreasing_by
  exact (readPiece_progresses text).length_lt _h

theorem repeats_pieces : Repeats readPiece fun text => .ok (pieces text, skipBlank text) := by
  intro text
  dsimp only
  rw [pieces]
  cases hread : readPiece text with
  | found _ rest => simp [(gap_of_readPiece hread).skipBlank_eq, Reading.mapValue]
  | missing rest => simp [skipBlank_of_readPiece hread]
  | stuck failure => exact absurd hread (readPiece_ne_stuck text failure)

/-- Skip a gap piece by piece, with a limit. -/
def gapWithin (limit : Nat) (text : Text) : Attempt (Option Text) :=
  (repeating (fun text => .done (readPiece text)) limit text).map Reading.rest?

section Expressions

variable (atom : Text → Attempt (Outcome Expr)) (limit : Nat)

/-- An item, given how atoms are read. -/
def itemBy (text : Text) : Attempt (Outcome Expr) :=
  (atom text).map endItem

/-- The items of a branch, given how atoms are read. -/
def itemsBy (text : Text) : Attempt (Reading (List Expr)) :=
  repeating (itemBy atom) limit text

/-- A further branch, given how atoms are read. -/
def branchBy (text : Text) : Attempt (Outcome Expr) :=
  match skipBlank text with
  | '|' :: inner =>
      (itemsBy atom limit inner).map fun reading => (reading.mapValue Expr.ofItems).toOutcome
  | _ => .done (.missing text)

/-- Further branches, given how atoms are read. -/
def branchesBy (text : Text) : Attempt (Reading (List Expr)) :=
  repeating (branchBy atom limit) limit text

/-- An expression, given how atoms are read. -/
def expressionBy (text : Text) : Attempt (Reading Expr) :=
  (itemsBy atom limit text).bind fun reading =>
    match reading with
    | .ok (items, rest) =>
        (branchesBy atom limit rest).map (Reading.mapValue fun branches =>
          Expr.ofBranches (Expr.ofItems items :: branches))
    | .error failure => .done (.error failure)

end Expressions

/-- An atom, where groups are nested less deep than `limit`. -/
def atomWithin : Nat → Text → Attempt (Outcome Expr)
  | 0, _ => .exceeded
  | limit + 1, text =>
      match skipBlank text with
      | '(' :: inner =>
          (expressionBy (atomWithin limit) limit inner).map fun reading =>
            (closeGroup reading).toOutcome
      | other => .done (readPlainAtom other)

/-- An expression, with a limit. -/
def expressionWithin (limit : Nat) (text : Text) : Attempt (Reading Expr) :=
  expressionBy (atomWithin limit) limit text

/-- What stands between the name of a definition and its body. -/
def readHead (text : Text) : Reading (Option Nat) :=
  (readCeiling text).bind fun (ceiling, rest) =>
    ((readSign '=' (skipBlank rest)).require [.sign '=']).mapValue fun _ => ceiling

/-- A definition that ends with its semicolon. -/
def closeDefinition (name : String) (ceiling : Option Nat) (reading : Reading Expr) :
    Reading Definition :=
  (reading.expecting .body).bind fun (body, rest) =>
    ((readSign ';' (skipBlank rest)).require [.sign ';']).mapValue fun _ => ⟨name, ceiling, body⟩

/-- A definition, with a limit. -/
def definitionWithin (limit : Nat) (text : Text) : Attempt (Outcome Definition) :=
  match readName (skipBlank text) with
  | .found name rest =>
      match readHead rest with
      | .ok (ceiling, rest) =>
          (expressionWithin limit rest).map fun reading =>
            (closeDefinition name ceiling reading).toOutcome
      | .error failure => .done (.stuck failure)
  | .missing rest => .done (.missing rest)
  | .stuck failure => .done (.stuck failure)

/-- As many definitions as there are, with a limit. -/
def definitionsWithin (limit : Nat) (text : Text) : Attempt (Reading (List Definition)) :=
  repeating (definitionWithin limit) limit text

/-! ## The limit is not reached -/

theorem gapWithin_eq_done {limit : Nat} (hlimit : text.length < limit) :
    gapWithin limit text = .done (some (skipBlank text)) := by
  rw [gapWithin, repeating_eq_done repeats_pieces readPiece_progresses (fun _ _ => rfl) hlimit]
  rfl

theorem repeats_readItems : Repeats readItem readItems := by
  intro text
  rw [readItems_eq]
  cases readItem text with
  | found item rest => rfl
  | missing rest => rfl
  | stuck failure => rfl

theorem repeats_readBranches : Repeats readBranch readBranches := by
  intro text
  rw [readBranches_eq]
  split
  · rename_i inner htext
    rw [readBranch_of_bar htext]
    cases readItems inner with
    | ok read => rfl
    | error failure => rfl
  · rename_i htext
    rw [readBranch_of_ne htext]

theorem repeats_readDefinitions : Repeats readDefinition readDefinitions := by
  intro text
  rw [readDefinitions_eq]
  cases readDefinition text with
  | found definition rest => rfl
  | missing rest => rfl
  | stuck failure => rfl

section Expressions

variable {atom : Text → Attempt (Outcome Expr)} {limit : Nat}

/-- Atoms are read as they should be, wherever no more than this text is left. -/
def AtomsDone (atom : Text → Attempt (Outcome Expr)) (text : Text) : Prop :=
  ∀ later, later.length ≤ text.length → atom later = .done (readAtom later)

theorem AtomsDone.of_length_le {later : Text} (h : AtomsDone atom text)
    (hlater : later.length ≤ text.length) : AtomsDone atom later := by
  intro last hlast
  exact h last (Nat.le_trans hlast hlater)

theorem itemsBy_eq_done (hatom : AtomsDone atom text) (hlimit : text.length < limit) :
    itemsBy atom limit text = .done (readItems text) := by
  refine repeating_eq_done repeats_readItems readItem_progresses ?_ hlimit
  intro later hlater
  rw [itemBy, hatom later hlater]
  rfl

theorem branchesBy_eq_done (hatom : AtomsDone atom text) (hlimit : text.length < limit) :
    branchesBy atom limit text = .done (readBranches text) := by
  refine repeating_eq_done repeats_readBranches readBranch_progresses ?_ hlimit
  intro later hlater
  unfold branchBy
  split
  · rename_i inner htext
    rw [readBranch_of_bar htext]
    have hinner : inner.length ≤ text.length :=
      Nat.le_trans (Nat.le_of_lt (behind_sign htext).2) hlater
    rw [itemsBy_eq_done (hatom.of_length_le hinner) (Nat.lt_of_le_of_lt hinner hlimit)]
    rfl
  · rename_i htext
    rw [readBranch_of_ne htext]

theorem expressionBy_eq_done (hatom : AtomsDone atom text) (hlimit : text.length < limit) :
    expressionBy atom limit text = .done (readExpression text) := by
  rw [expressionBy, itemsBy_eq_done hatom hlimit, readExpression_eq]
  cases hread : readItems text with
  | error failure => rfl
  | ok read =>
      obtain ⟨items, rest⟩ := read
      have hrest := (readItems_keeps text).length_le hread
      have hbranches :=
        branchesBy_eq_done (hatom.of_length_le hrest) (Nat.lt_of_le_of_lt hrest hlimit)
      simp [Attempt.bind, Attempt.map, Except.bind, hbranches]

end Expressions

theorem readAtom_of_ne_paren (h : ∀ inner, skipBlank text ≠ '(' :: inner) :
    readAtom text = readPlainAtom (skipBlank text) := by
  rw [readAtom_eq]
  split
  · rename_i inner htext
    exact absurd htext (h inner)
  · rfl

theorem atomWithin_eq_done {limit : Nat} (hlimit : text.length < limit) :
    atomWithin limit text = .done (readAtom text) := by
  induction limit generalizing text with
  | zero => exact absurd hlimit (Nat.not_lt_zero _)
  | succ limit ih =>
      rw [atomWithin]
      split
      · rename_i inner htext
        have hinner : inner.length < limit :=
          Nat.lt_of_lt_of_le (behind_sign htext).2 (Nat.le_of_lt_succ hlimit)
        have hatom : AtomsDone (atomWithin limit) inner := fun later hlater =>
          ih (Nat.lt_of_le_of_lt hlater hinner)
        rw [expressionBy_eq_done hatom hinner, readAtom_eq, htext]
        rfl
      · rename_i htext
        rw [readAtom_of_ne_paren htext]

theorem expressionWithin_eq_done {limit : Nat} (hlimit : text.length < limit) :
    expressionWithin limit text = .done (readExpression text) :=
  expressionBy_eq_done (fun _ hlater => atomWithin_eq_done (Nat.lt_of_le_of_lt hlater hlimit))
    hlimit

theorem readDefinitionEnd_eq (name : String) (text : Text) :
    readDefinitionEnd name text =
      (readHead text).bind fun (ceiling, rest) =>
        closeDefinition name ceiling (readExpression rest) := by
  rw [readDefinitionEnd, readHead]
  cases readCeiling text with
  | error failure => rfl
  | ok read =>
      dsimp only [Except.bind]
      cases (readSign '=' (skipBlank read.2)).require [.sign '='] with
      | error failure => rfl
      | ok equals => rfl

theorem readHead_keeps (text : Text) : Reading.Keeps text (readHead text) :=
  Reading.keeps_bind (readCeiling_keeps text) fun _ _ h =>
    (Reading.keeps_require
      ((readSign_progresses _ _).of_suffix ((skipBlank_suffix _).trans h))).mapValue _

theorem definitionWithin_eq_done {limit : Nat} (hlimit : text.length < limit) :
    definitionWithin limit text = .done (readDefinition text) := by
  have hname := (readName_progresses (skipBlank text)).of_suffix (skipBlank_suffix text)
  rw [definitionWithin, readDefinition]
  cases hread : readName (skipBlank text) with
  | missing rest => rfl
  | stuck failure => rfl
  | found name rest =>
      rw [hread] at hname
      have hhead := (readHead_keeps rest).of_suffix hname.1
      simp only [readDefinitionEnd_eq]
      cases hread : readHead rest with
      | error failure => rfl
      | ok head =>
          obtain ⟨ceiling, behind⟩ := head
          have hbehind : behind.length < limit :=
            Nat.lt_of_le_of_lt (hhead.length_le hread) hlimit
          simp only [expressionWithin_eq_done hbehind]
          rfl

/-- Every reader that succeeds leaves an end of the text, and the reader of an
element of a repetition a shorter one.  So with a limit beyond the length of the
text, no element is found that uses up nothing, and neither the repetitions nor
the depth of the groups come to the limit: readers do what they do without it. -/
theorem progresses_and_readers_done (text : Text) :
    (∀ part rest, Part.rest? text part = some rest →
      rest <:+ text ∧ (part ∈ Part.elements → rest.length < text.length)) ∧
    ∀ limit, text.length < limit →
      gapWithin limit text = .done (some (skipBlank text)) ∧
      atomWithin limit text = .done (readAtom text) ∧
      expressionWithin limit text = .done (readExpression text) ∧
      definitionsWithin limit text = .done (readDefinitions text) := by
  refine ⟨fun part rest h => Part.suffix_and_shorter h, fun limit hlimit => ?_⟩
  refine ⟨gapWithin_eq_done hlimit, atomWithin_eq_done hlimit, expressionWithin_eq_done hlimit, ?_⟩
  refine repeating_eq_done repeats_readDefinitions readDefinition_progresses ?_ hlimit
  intro later hlater
  exact definitionWithin_eq_done (Nat.lt_of_le_of_lt hlater hlimit)

/-- An item with groups inside of each other, and behind it groups that do not
end. -/
def openGroups : Text :=
  " (('a')? | (x)) # y\n (((@".toList

theorem progresses_and_readers_done_openGroups :
    Part.rest? openGroups .item = some " # y\n (((@".toList ∧
      (" # y\n (((@".toList <:+ openGroups ∧
        (Part.item ∈ Part.elements → " # y\n (((@".toList.length < openGroups.length)) ∧
      openGroups.length < 26 ∧
      gapWithin 26 openGroups = .done (some (skipBlank openGroups)) ∧
      atomWithin 26 openGroups = .done (readAtom openGroups) ∧
      expressionWithin 26 openGroups = .done (readExpression openGroups) ∧
      definitionsWithin 26 openGroups = .done (readDefinitions openGroups) := by
  have hitem : Part.rest? openGroups .item = some " # y\n (((@".toList := by decide +kernel
  have hlimit : openGroups.length < 26 := by decide
  exact ⟨hitem, (progresses_and_readers_done openGroups).1 _ _ hitem, hlimit,
    (progresses_and_readers_done openGroups).2 26 hlimit⟩

end GrammarRepair.Source
