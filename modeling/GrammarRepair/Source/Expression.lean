import GrammarRepair.Source.Lexeme

/-!
# Reading expressions

An expression is a list of branches between bars; a branch is a list of items,
possibly empty; an item is an atom, then optionally the name of a suggestion,
then optionally a quantifier.  Parentheses group and leave no trace.

Branches and items always read something, if only nothing at all, and so does a
whole expression.  Atoms and items can be missing, and then the list they belong
to ends in front of the blanks that led there.  The readers call each other, and
every call has less text left or stands lower in that order.
-/

namespace GrammarRepair.Source

/-- The name of a suggestion behind an at sign, if there is one. -/
def readSuggestion (text : Text) : Reading (Option String) :=
  match skipBlank text with
  | '@' :: rest => ((readName rest).map some).require []
  | _ => .ok (none, text)

/-- The upper bound behind a comma: unbounded if no count follows.  Without a
comma the lower bound is the upper bound too. -/
def readUpperBound (low : Nat) (text : Text) : Option Nat × Text :=
  match text with
  | ',' :: rest =>
      match readCount (skipBlank rest) with
      | .found high rest => (some high, rest)
      | _ => (none, skipBlank rest)
  | _ => (some low, text)

/-- The bounds of a repetition up to the closing brace. -/
def readBounds (text : Text) : Reading (Nat × Option Nat) :=
  ((readCount (skipBlank text)).require [.count]).bind fun (low, rest) =>
    let (high, rest) := readUpperBound low (skipBlank rest)
    ((readSign '}' (skipBlank rest)).require []).bind fun (_, rest) =>
      .ok ((low, high), rest)

/-- A quantifier, if there is one: the least and the greatest number of
copies. -/
def readQuantifier (text : Text) : Reading (Option (Nat × Option Nat)) :=
  match skipBlank text with
  | '?' :: rest => .ok (some (0, some 1), rest)
  | '*' :: rest => .ok (some (0, none), rest)
  | '+' :: rest => .ok (some (1, none), rest)
  | '{' :: rest => (readBounds rest).mapValue some
  | _ => .ok (none, text)

/-- What may follow an atom. -/
def readItemEnd (atom : Expr) (text : Text) : Reading Expr :=
  (readSuggestion text).bind fun (suggestion, rest) =>
    (readQuantifier rest).bind fun (quantifier, rest) =>
      .ok ((atom.withSuggestion suggestion).withQuantifier quantifier, rest)

/-- An atom that is not a group. -/
def readPlainAtom (text : Text) : Outcome Expr :=
  match text with
  | '"' :: _ => (readText text).map .literal
  | '\'' :: _ => readRange text
  | _ => (readName text).map .reference

/-- The item that begins with an atom. -/
def endItem : Outcome Expr → Outcome Expr
  | .found atom rest => (readItemEnd atom rest).toOutcome
  | .missing rest => .missing rest
  | .stuck failure => .stuck failure

/-- A group that ends with its parenthesis. -/
def closeGroup (reading : Reading Expr) : Reading Expr :=
  reading.bind fun (expr, rest) =>
    ((readSign ')' (skipBlank rest)).require []).mapValue fun _ => expr

theorem readSuggestion_keeps (text : Text) : Reading.Keeps text (readSuggestion text) := by
  unfold readSuggestion
  split
  · rename_i rest hrest
    have hsuffix : '@' :: rest <:+ text := hrest ▸ skipBlank_suffix text
    exact Reading.keeps_require (((readName_progresses rest).map some).of_suffix
      ((List.suffix_cons '@' rest).trans hsuffix))
  · exact List.suffix_rfl

theorem readUpperBound_suffix (low : Nat) (text : Text) : (readUpperBound low text).2 <:+ text := by
  unfold readUpperBound
  split
  · rename_i rest
    have hrest : skipBlank rest <:+ ',' :: rest :=
      (skipBlank_suffix rest).trans (List.suffix_cons ',' rest)
    have hcount := readCount_progresses (skipBlank rest)
    split
    · rename_i hread
      rw [hread] at hcount
      exact hcount.1.trans hrest
    · exact hrest
  · exact List.suffix_rfl

theorem readBounds_keeps (text : Text) : Reading.Keeps text (readBounds text) := by
  refine Reading.keeps_bind (Reading.keeps_require
    ((readCount_progresses _).of_suffix (skipBlank_suffix text))) fun low rest hrest => ?_
  have hupper : (readUpperBound low (skipBlank rest)).2 <:+ text :=
    (readUpperBound_suffix low _).trans ((skipBlank_suffix rest).trans hrest)
  refine Reading.keeps_bind (Reading.keeps_require ((readSign_progresses _ _).of_suffix
    ((skipBlank_suffix _).trans hupper))) fun _ last hlast => hlast

theorem readQuantifier_keeps (text : Text) : Reading.Keeps text (readQuantifier text) := by
  have hsuffix : ∀ {c rest}, skipBlank text = c :: rest → rest <:+ text := fun {c rest} h =>
    (List.suffix_cons c rest).trans (h ▸ skipBlank_suffix text)
  unfold readQuantifier
  split <;> rename_i h
  · exact hsuffix h
  · exact hsuffix h
  · exact hsuffix h
  · exact ((readBounds_keeps _).of_suffix (hsuffix h)).mapValue some
  · exact List.suffix_rfl

theorem readItemEnd_keeps (atom : Expr) (text : Text) :
    Reading.Keeps text (readItemEnd atom text) :=
  Reading.keeps_bind (readSuggestion_keeps text) fun _ rest hrest =>
    Reading.keeps_bind ((readQuantifier_keeps rest).of_suffix hrest) fun _ _ hlast => hlast

theorem readPlainAtom_progresses (text : Text) : (readPlainAtom text).Progresses text := by
  unfold readPlainAtom
  split
  · exact (readText_progresses _).map _
  · exact readRange_progresses _
  · exact (readName_progresses _).map _

theorem endItem_progresses {text : Text} {outcome : Outcome Expr}
    (h : outcome.Progresses text) : (endItem outcome).Progresses text := by
  cases outcome with
  | found atom rest => exact (readItemEnd_keeps atom rest).toOutcome h.1 h.2
  | missing rest => exact h
  | stuck failure => exact h

theorem closeGroup_keeps {text : Text} {reading : Reading Expr}
    (h : Reading.Keeps text reading) : Reading.Keeps text (closeGroup reading) :=
  Reading.keeps_bind h fun _ _ hrest => (Reading.keeps_require
    ((readSign_progresses _ _).of_suffix ((skipBlank_suffix _).trans hrest))).mapValue _

/-! The recursion.  These readers return along with each outcome that it
progresses, or keeps to the text. -/

/-- What stands behind the first sign of the text, blanks aside, is shorter than
the text. -/
theorem behind_sign {text rest : Text} {sign : Char} (h : skipBlank text = sign :: rest) :
    rest <:+ text ∧ rest.length < text.length := by
  have hsuffix : sign :: rest <:+ text := h ▸ skipBlank_suffix text
  exact ⟨(List.suffix_cons sign rest).trans hsuffix, hsuffix.length_le⟩

mutual

/-- An atom: a text, a range, a name or a group. -/
def atomOf (text : Text) : { outcome : Outcome Expr // outcome.Progresses text } :=
  match h : skipBlank text with
  | '(' :: inner =>
      have hinner := behind_sign h
      match expressionOf inner with
      | ⟨reading, hreading⟩ =>
          ⟨(closeGroup reading).toOutcome, (closeGroup_keeps hreading).toOutcome hinner.1 hinner.2⟩
  | other =>
      ⟨readPlainAtom other, (readPlainAtom_progresses other).of_suffix (h ▸ skipBlank_suffix text)⟩
termination_by 4 * text.length + 0

/-- The items of a branch. -/
def itemsOf (text : Text) : { reading : Reading (List Expr) // Reading.Keeps text reading } :=
  match atomOf text with
  | ⟨atom, hatom⟩ =>
      have hitem := endItem_progresses hatom
      match endItem atom, hitem with
      | .found item rest, hitem =>
          have _hless : rest.length < text.length := hitem.2
          match itemsOf rest with
          | ⟨reading, hreading⟩ =>
              ⟨reading.mapValue (item :: ·), (hreading.of_suffix hitem.1).mapValue _⟩
      | .missing _, _ => ⟨.ok ([], text), List.suffix_rfl⟩
      | .stuck failure, hitem => ⟨.error failure, hitem⟩
termination_by 4 * text.length + 1

/-- Further branches, each behind a bar. -/
def branchesOf (text : Text) : { reading : Reading (List Expr) // Reading.Keeps text reading } :=
  match h : skipBlank text with
  | '|' :: inner =>
      have hinner := behind_sign h
      match itemsOf inner with
      | ⟨.error failure, hitems⟩ => ⟨.error failure, List.IsSuffix.trans hitems hinner.1⟩
      | ⟨.ok (items, rest), hitems⟩ =>
          have hrest : rest <:+ inner := hitems
          have _hless := Nat.lt_of_le_of_lt hrest.length_le hinner.2
          match branchesOf rest with
          | ⟨reading, hreading⟩ =>
              ⟨reading.mapValue (Expr.ofItems items :: ·),
                (hreading.of_suffix (hrest.trans hinner.1)).mapValue _⟩
  | _ => ⟨.ok ([], text), List.suffix_rfl⟩
termination_by 4 * text.length + 2

/-- An expression: one branch or more. -/
def expressionOf (text : Text) : { reading : Reading Expr // Reading.Keeps text reading } :=
  match itemsOf text with
  | ⟨.error failure, hitems⟩ => ⟨.error failure, hitems⟩
  | ⟨.ok (items, rest), hitems⟩ =>
      have hrest : rest <:+ text := hitems
      have _hlength := hrest.length_le
      match branchesOf rest with
      | ⟨reading, hreading⟩ =>
          ⟨reading.mapValue fun branches => Expr.ofBranches (Expr.ofItems items :: branches),
            (hreading.of_suffix hrest).mapValue _⟩
termination_by 4 * text.length + 3

end

/-- Read an atom: a text, a range, a name or a group. -/
def readAtom (text : Text) : Outcome Expr :=
  (atomOf text).val

/-- Read an item: an atom with what follows it. -/
def readItem (text : Text) : Outcome Expr :=
  endItem (readAtom text)

/-- Read the items of a branch. -/
def readItems (text : Text) : Reading (List Expr) :=
  (itemsOf text).val

/-- Read further branches, each behind a bar. -/
def readBranches (text : Text) : Reading (List Expr) :=
  (branchesOf text).val

/-- Read an expression. -/
def readExpression (text : Text) : Reading Expr :=
  (expressionOf text).val

theorem readAtom_progresses (text : Text) : (readAtom text).Progresses text :=
  (atomOf text).property

theorem readItem_progresses (text : Text) : (readItem text).Progresses text :=
  endItem_progresses (readAtom_progresses text)

theorem readItems_keeps (text : Text) : Reading.Keeps text (readItems text) :=
  (itemsOf text).property

theorem readBranches_keeps (text : Text) : Reading.Keeps text (readBranches text) :=
  (branchesOf text).property

theorem readExpression_keeps (text : Text) : Reading.Keeps text (readExpression text) :=
  (expressionOf text).property

/-! The equations of the readers, without the facts that the recursion needs. -/

theorem readAtom_eq (text : Text) :
    readAtom text =
      match skipBlank text with
      | '(' :: inner => (closeGroup (readExpression inner)).toOutcome
      | other => readPlainAtom other := by
  rw [readAtom, atomOf]
  split <;> rename_i h <;> simp only [h, readExpression]

theorem readItems_eq (text : Text) :
    readItems text =
      match readItem text with
      | .found item rest => (readItems rest).mapValue (item :: ·)
      | .missing _ => .ok ([], text)
      | .stuck failure => .error failure := by
  rw [readItems, itemsOf]
  simp only [readItem, readAtom]
  split <;> rename_i h _ <;> simp only [h, readItems]

theorem readBranches_eq (text : Text) :
    readBranches text =
      match skipBlank text with
      | '|' :: inner =>
          (readItems inner).bind fun (items, rest) =>
            (readBranches rest).mapValue (Expr.ofItems items :: ·)
      | _ => .ok ([], text) := by
  rw [readBranches, branchesOf]
  split <;> rename_i h <;> simp only [h]
  · rename_i inner
    rw [readItems]
    split <;> rename_i h <;> simp only [h] <;> rfl

theorem readExpression_eq (text : Text) :
    readExpression text =
      (readItems text).bind fun (items, rest) =>
        (readBranches rest).mapValue fun branches =>
          Expr.ofBranches (Expr.ofItems items :: branches) := by
  rw [readExpression, expressionOf, readItems]
  split <;> rename_i h <;> simp only [h] <;> rfl

end GrammarRepair.Source
