import GrammarRepair.Proofs.Source.Gaps
import GrammarRepair.Proofs.Source.Phrase
import GrammarRepair.Source.Reader

/-!
# A phrase is read

Where a text spells a phrase, the reader for that kind of phrase finds what the
phrase says and stops behind it.  It stops there because of what comes next:
nothing that may follow an item, a branch or an expression can be mistaken for
more of it, and one character is enough to see that.
-/

namespace GrammarRepair.Source

/-! ## What comes next -/

/-- The character neither makes an atom a range nor adds to an item. -/
def EndsItem (c : Char) : Prop :=
  c ∉ ['.', '@', '?', '*', '+', '{']

/-- The character stands behind a branch. -/
def EndsBranch (c : Char) : Prop :=
  c = '|' ∨ c = ')' ∨ c = ';'

/-- The character stands behind an expression. -/
def EndsExpression (c : Char) : Prop :=
  c = ')' ∨ c = ';'

instance (c : Char) : Decidable (EndsItem c) :=
  inferInstanceAs (Decidable (c ∉ _))

instance (c : Char) : Decidable (EndsExpression c) :=
  inferInstanceAs (Decidable (_ ∨ _))

theorem EndsBranch.endsItem {c : Char} (h : EndsBranch c) : EndsItem c := by
  obtain rfl | rfl | rfl := h
  all_goals decide

theorem EndsExpression.endsBranch {c : Char} (h : EndsExpression c) : EndsBranch c :=
  .inr h

theorem endsItem_of_isNameStart {c : Char} (h : isNameStart c = true) : EndsItem c := by
  intro hc
  have hall : (['.', '@', '?', '*', '+', '{'].all fun d => !isNameStart d) = true := by decide
  have hnot := List.all_eq_true.mp hall c hc
  rw [h] at hnot
  exact Bool.false_ne_true hnot

/-- What an atom begins with can follow an item. -/
theorem AtomPhrase.exists_cons {tokens : List Token} {expr : Expr} (h : AtomPhrase tokens expr) :
    ∃ token tail, tokens = token :: tail ∧ ∀ c, token.Starts c → EndsItem c := by
  have heq {c : Char} (d : Char) (hd : EndsItem d) (hc : c = d) : EndsItem c := hc ▸ hd
  cases h with
  | literal value => exact ⟨_, _, rfl, fun c hc => heq '"' (by decide) hc⟩
  | character value => exact ⟨_, _, rfl, fun c hc => heq '\'' (by decide) hc⟩
  | range low high => exact ⟨_, _, rfl, fun c hc => heq '\'' (by decide) hc⟩
  | reference name => exact ⟨_, _, rfl, fun c hc => endsItem_of_isNameStart hc⟩
  | group hinner => exact ⟨_, _, rfl, fun c hc => heq '(' (by decide) hc.1⟩

theorem BranchPhrase.fronts {tokens : List Token} {items : List Expr} {text rest : Text}
    (h : BranchPhrase tokens items) (hspells : Spells tokens text rest)
    (hrest : Fronts EndsBranch rest) : Fronts EndsItem text := by
  cases h with
  | nil => exact hspells.eq_of_nil ▸ hrest.mono fun _ => EndsBranch.endsItem
  | cons hitem _ =>
      cases hitem with
      | mk hatom _ _ =>
          obtain ⟨token, tail, rfl, hstarts⟩ := hatom.exists_cons
          exact hspells.fronts.mono hstarts

theorem BarPhrase.fronts {tokens : List Token} {branches : List Expr} {text rest : Text}
    (h : BarPhrase tokens branches) (hspells : Spells tokens text rest)
    (hrest : Fronts EndsExpression rest) : Fronts EndsBranch text := by
  cases h with
  | nil => exact hspells.eq_of_nil ▸ hrest.mono fun _ => EndsExpression.endsBranch
  | cons _ _ _ => exact hspells.fronts_sign.mono fun _ hc => .inl hc

theorem QuantifierPhrase.fronts {inner item : Expr} {tokens : List Token} {text rest : Text}
    (h : QuantifierPhrase inner tokens item) (hspells : Spells tokens text rest)
    (hrest : Fronts EndsItem rest) : Fronts (· ∉ ['.', '@']) text := by
  have hsign {sign : Char} {tail : List Token} (hsign : sign ∉ ['.', '@'])
      (hspells : Spells (.sign sign :: tail) text rest) : Fronts (· ∉ ['.', '@']) text :=
    hspells.fronts_sign.mono fun c hc => hc ▸ hsign
  cases h with
  | absent =>
      have hends : ∀ c, EndsItem c → c ∉ ['.', '@'] := fun c hc hmem =>
        hc (List.mem_append_left ['?', '*', '+', '{'] hmem)
      exact hspells.eq_of_nil ▸ hrest.mono hends
  | _ => exact hsign (by decide) hspells

theorem SuggestionPhrase.fronts {atom inner : Expr} {tokens : List Token} {text rest : Text}
    (h : SuggestionPhrase atom tokens inner) (hspells : Spells tokens text rest)
    (hrest : Fronts (· ∉ ['.', '@']) rest) : Fronts (· ≠ '.') text := by
  cases h with
  | absent =>
      exact hspells.eq_of_nil ▸ hrest.mono fun c hc hdot => hc (hdot ▸ List.mem_cons_self)
  | present name =>
      refine hspells.fronts.mono fun c hc => ?_
      obtain rfl : c = '@' := hc
      decide

/-! ## Atoms that are not groups -/

theorem readUpperEnd_of_fronts {low : Char} {text : Text} (h : Fronts (· ≠ '.') text) :
    readUpperEnd low text = .ok (low, text) := by
  unfold readUpperEnd
  split
  · rename_i htext
    exact absurd htext (h.ne_cons (by decide))
  · rfl

theorem readUpperEnd_of_spells {low high : Char} {text rest : Text}
    (h : Spells [.dots, .character high] text rest) :
    readUpperEnd low text = .ok (high, rest) := by
  obtain ⟨middle, hdots, hhigh⟩ := h.exists_of_cons
  rw [readUpperEnd, spells_dots_iff.mp hdots]
  exact Outcome.require_eq_ok_iff.mpr (spells_character_iff.mp hhigh)

/-- An atom that is not a group is read where it begins. -/
theorem readAtom_of_ne {c : Char} {text tail : Text} (htext : skipBlank text = c :: tail)
    (hc : c ≠ '(') : readAtom text = readPlainAtom (c :: tail) := by
  rw [readAtom_eq]
  split
  · rename_i heq
    rw [htext] at heq
    exact absurd (List.cons.inj heq).1 hc
  · rw [htext]

theorem readPlainAtom_of_ne {c : Char} {tail : Text} (hquote : c ≠ '"') (happ : c ≠ '\'') :
    readPlainAtom (c :: tail) = (readName (c :: tail)).map .reference := by
  unfold readPlainAtom
  split
  · rename_i heq
    exact absurd (List.cons.inj heq).1 hquote
  · rename_i heq
    exact absurd (List.cons.inj heq).1 happ
  · rfl

theorem readAtom_of_text {value : Text} {text rest : Text} (h : Spells [.text value] text rest) :
    readAtom text = .found (.literal value) rest := by
  obtain ⟨c, tail, htext, hc⟩ := h.fronts
  obtain rfl : c = '"' := hc
  have hread := spells_text_iff.mp h
  rw [htext] at hread
  rw [readAtom_of_ne htext (by decide)]
  exact Outcome.map_eq_found_iff.mpr ⟨value, hread, rfl⟩

theorem readAtom_of_character {low high : Char} {text middle rest : Text}
    (hlow : Spells [.character low] text middle)
    (hhigh : readUpperEnd low middle = .ok (high, rest)) :
    readAtom text = .found (.range low high) rest := by
  obtain ⟨c, tail, htext, hc⟩ := hlow.fronts
  obtain rfl : c = '\'' := hc
  have hread := spells_character_iff.mp hlow
  rw [htext] at hread
  have hrange : readPlainAtom ('\'' :: tail) = readRange ('\'' :: tail) := rfl
  rw [readAtom_of_ne htext (by decide), hrange, readRange, hread]
  dsimp only
  rw [hhigh]

theorem readAtom_of_name {name : String} {text rest : Text} (h : Spells [.name name] text rest) :
    readAtom text = .found (.reference name) rest := by
  obtain ⟨c, tail, htext, hc⟩ := h.fronts
  have hne {d : Char} (hd : isNameStart d = false) : c ≠ d := by
    rintro rfl
    exact Bool.false_ne_true (hd.symm.trans hc)
  have hread := spells_name_iff.mp h
  rw [htext] at hread
  rw [readAtom_of_ne htext (hne (by decide)),
    readPlainAtom_of_ne (hne (by decide)) (hne (by decide))]
  exact Outcome.map_eq_found_iff.mpr ⟨name, hread, rfl⟩

/-- No atom begins with what stands behind a branch. -/
theorem readAtom_of_endsBranch {text : Text} (h : Fronts EndsBranch text) :
    ∃ rest, readAtom text = .missing rest := by
  obtain ⟨c, tail, htext, rfl | rfl | rfl⟩ := h
  all_goals exact ⟨_, readAtom_of_ne htext (by decide)⟩

/-! ## What follows an atom -/

theorem SuggestionPhrase.exists_readSuggestion_eq {atom inner : Expr} {tokens : List Token}
    {text rest : Text} (h : SuggestionPhrase atom tokens inner) (hspells : Spells tokens text rest)
    (hrest : Fronts (· ≠ '@') rest) :
    ∃ suggestion, readSuggestion text = .ok (suggestion, rest) ∧
      atom.withSuggestion suggestion = inner := by
  cases h with
  | absent =>
      obtain rfl := hspells.eq_of_nil
      refine ⟨none, ?_, rfl⟩
      unfold readSuggestion
      split
      · rename_i htext
        exact absurd htext (hrest.ne_cons (by decide))
      · rfl
  | present name =>
      obtain ⟨tail, htext, hname⟩ := spells_suggestion_iff.mp hspells
      refine ⟨some name, ?_, rfl⟩
      rw [readSuggestion, htext]
      exact Outcome.require_eq_ok_iff.mpr (Outcome.map_eq_found_iff.mpr ⟨name, hname, rfl⟩)

/-- The bounds are read if the upper one is, up to the closing brace. -/
theorem readQuantifier_of_upperBound {low : Nat} {high : Option Nat}
    {tokens : List Token} {text rest : Text}
    (hspells : Spells (.sign '{' :: .count low :: tokens) text rest)
    (hupper : ∀ {later}, Spells tokens later rest → ∃ middle,
      readUpperBound low (skipBlank later) = (high, middle) ∧ Spells [.sign '}'] middle rest) :
    readQuantifier text = .ok (some (low, high), rest) := by
  obtain ⟨inner, hopen, hspells⟩ := hspells.exists_of_cons
  obtain ⟨later, hlow, hspells⟩ := hspells.exists_of_cons
  obtain ⟨middle, hhigh, hclose⟩ := hupper hspells
  have hbounds : readBounds inner = .ok ((low, high), rest) := by
    refine Reading.bind_eq_ok_iff.mpr ⟨low, later, require_readCount_eq_ok_iff.mpr hlow, ?_⟩
    dsimp only
    rw [hhigh]
    exact Reading.bind_eq_ok_iff.mpr
      ⟨(), rest, (require_readSign_eq_ok_iff (by decide)).mpr hclose, rfl⟩
  rw [readQuantifier, (spells_sign_iff (by decide)).mp hopen]
  exact Reading.mapValue_eq_ok_iff.mpr ⟨_, hbounds, rfl⟩

theorem readUpperBound_of_brace {low : Nat} {text rest : Text}
    (h : Spells [.sign '}'] text rest) :
    ∃ middle, readUpperBound low (skipBlank text) = (some low, middle) ∧
      Spells [.sign '}'] middle rest := by
  have htext := (spells_sign_iff (by decide)).mp h
  refine ⟨skipBlank text, ?_, h.skipBlank⟩
  rw [htext]
  rfl

theorem readUpperBound_of_comma {low : Nat} {text rest : Text}
    (h : Spells [.sign ',', .sign '}'] text rest) :
    ∃ middle, readUpperBound low (skipBlank text) = (none, middle) ∧
      Spells [.sign '}'] middle rest := by
  obtain ⟨tail, hcomma, hbrace⟩ := h.exists_of_cons
  refine ⟨skipBlank tail, ?_, hbrace.skipBlank⟩
  rw [(spells_sign_iff (by decide)).mp hcomma, readUpperBound,
    (spells_sign_iff (by decide)).mp hbrace]
  rfl

theorem readUpperBound_of_count {low high : Nat} {text rest : Text}
    (h : Spells [.sign ',', .count high, .sign '}'] text rest) :
    ∃ middle, readUpperBound low (skipBlank text) = (some high, middle) ∧
      Spells [.sign '}'] middle rest := by
  obtain ⟨tail, hcomma, hspells⟩ := h.exists_of_cons
  obtain ⟨later, hcount, hbrace⟩ := hspells.exists_of_cons
  refine ⟨later, ?_, hbrace⟩
  rw [(spells_sign_iff (by decide)).mp hcomma, readUpperBound, spells_count_iff.mp hcount]

theorem QuantifierPhrase.exists_readQuantifier_eq {inner item : Expr} {tokens : List Token}
    {text rest : Text} (h : QuantifierPhrase inner tokens item)
    (hspells : Spells tokens text rest) (hrest : Fronts EndsItem rest) :
    ∃ quantifier, readQuantifier text = .ok (quantifier, rest) ∧
      inner.withQuantifier quantifier = item := by
  cases h with
  | absent =>
      obtain rfl := hspells.eq_of_nil
      refine ⟨none, ?_, rfl⟩
      unfold readQuantifier
      split
      · rename_i htext
        exact absurd htext (hrest.ne_cons (by decide))
      · rename_i htext
        exact absurd htext (hrest.ne_cons (by decide))
      · rename_i htext
        exact absurd htext (hrest.ne_cons (by decide))
      · rename_i htext
        exact absurd htext (hrest.ne_cons (by decide))
      · rfl
  | optional =>
      refine ⟨some (0, some 1), ?_, rfl⟩
      rw [readQuantifier, (spells_sign_iff (by decide)).mp hspells]
      rfl
  | star =>
      refine ⟨some (0, none), ?_, rfl⟩
      rw [readQuantifier, (spells_sign_iff (by decide)).mp hspells]
      rfl
  | plus =>
      refine ⟨some (1, none), ?_, rfl⟩
      rw [readQuantifier, (spells_sign_iff (by decide)).mp hspells]
      rfl
  | exact n =>
      exact ⟨_, readQuantifier_of_upperBound hspells readUpperBound_of_brace, rfl⟩
  | atLeast n =>
      exact ⟨_, readQuantifier_of_upperBound hspells readUpperBound_of_comma, rfl⟩
  | between n m =>
      exact ⟨_, readQuantifier_of_upperBound hspells readUpperBound_of_count, rfl⟩

theorem readItemEnd_of_phrases {atom inner item : Expr} {tokens tokens' : List Token}
    {text middle rest : Text} (hsuggestion : SuggestionPhrase atom tokens inner)
    (hspells : Spells tokens text middle) (hquantifier : QuantifierPhrase inner tokens' item)
    (hspells' : Spells tokens' middle rest) (hrest : Fronts EndsItem rest) :
    readItemEnd atom text = .ok (item, rest) := by
  have hmiddle : Fronts (· ≠ '@') middle :=
    (hquantifier.fronts hspells' hrest).mono fun _ hc hat => hc (by simp [hat])
  obtain ⟨suggestion, hfirst, rfl⟩ := hsuggestion.exists_readSuggestion_eq hspells hmiddle
  obtain ⟨quantifier, hsecond, rfl⟩ := hquantifier.exists_readQuantifier_eq hspells' hrest
  exact Reading.bind_eq_ok_iff.mpr ⟨suggestion, middle, hfirst,
    Reading.bind_eq_ok_iff.mpr ⟨quantifier, rest, hsecond, rfl⟩⟩

/-! ## Expressions -/

theorem SequenceOf.eq_ofItems {items : List Expr} {expr : Expr} (h : SequenceOf items expr) :
    Expr.ofItems items = expr := by
  cases h with
  | single item => rfl
  | several hlength =>
      match items with
      | [] => rfl
      | [item] => simp at hlength
      | first :: second :: items => rfl

theorem ChoiceOf.eq_ofBranches {branches : List Expr} {expr : Expr} (h : ChoiceOf branches expr) :
    Expr.ofBranches branches = expr := by
  cases h with
  | single branch => rfl
  | several hlength =>
      match branches with
      | [] => simp at hlength
      | [branch] => simp at hlength
      | first :: second :: branches => rfl

mutual

theorem AtomPhrase.readAtom_eq {tokens : List Token} {expr : Expr} {text rest : Text}
    (hphrase : AtomPhrase tokens expr) (hspells : Spells tokens text rest)
    (hrest : Fronts (· ≠ '.') rest) : readAtom text = .found expr rest := by
  match hphrase with
  | .literal value => exact readAtom_of_text hspells
  | .character c => exact readAtom_of_character hspells (readUpperEnd_of_fronts hrest)
  | .range low high =>
      obtain ⟨middle, hlow, hhigh⟩ := hspells.exists_of_cons
      exact readAtom_of_character hlow (readUpperEnd_of_spells hhigh)
  | .reference name => exact readAtom_of_name hspells
  | .group hinner =>
      obtain ⟨inner, hopen, hspells⟩ := hspells.exists_of_cons
      obtain ⟨middle, hinside, hclose⟩ := hspells.exists_of_append
      have hmiddle : Fronts EndsExpression middle := hclose.fronts_sign.mono fun _ hc => .inl hc
      have hread := hinner.readExpression_eq hinside hmiddle
      rw [Source.readAtom_eq, (spells_sign_iff (by decide)).mp hopen]
      refine Reading.toOutcome_eq_found_iff.mpr
        (Reading.bind_eq_ok_iff.mpr ⟨expr, middle, hread, ?_⟩)
      exact Reading.mapValue_eq_ok_iff.mpr
        ⟨(), (require_readSign_eq_ok_iff (by decide)).mpr hclose, rfl⟩

theorem ItemPhrase.readItem_eq {tokens : List Token} {item : Expr} {text rest : Text}
    (hphrase : ItemPhrase tokens item) (hspells : Spells tokens text rest)
    (hrest : Fronts EndsItem rest) : readItem text = .found item rest := by
  match hphrase with
  | .mk hatom hsuggestion hquantifier =>
      obtain ⟨behind, hfirst, hspells⟩ := hspells.exists_of_append
      obtain ⟨middle, hsecond, hthird⟩ := hspells.exists_of_append
      have hbehind := hsuggestion.fronts hsecond (hquantifier.fronts hthird hrest)
      rw [readItem, hatom.readAtom_eq hfirst hbehind]
      exact Reading.toOutcome_eq_found_iff.mpr
        (readItemEnd_of_phrases hsuggestion hsecond hquantifier hthird hrest)

theorem BranchPhrase.readItems_eq {tokens : List Token} {items : List Expr} {text rest : Text}
    (hphrase : BranchPhrase tokens items) (hspells : Spells tokens text rest)
    (hrest : Fronts EndsBranch rest) : readItems text = .ok (items, rest) := by
  match hphrase with
  | .nil =>
      obtain rfl := hspells.eq_of_nil
      obtain ⟨left, hmissing⟩ := readAtom_of_endsBranch hrest
      rw [Source.readItems_eq, readItem, hmissing]
      rfl
  | .cons hitem hitems =>
      obtain ⟨middle, hfirst, hsecond⟩ := hspells.exists_of_append
      have hmiddle := hitems.fronts hsecond hrest
      rw [Source.readItems_eq, hitem.readItem_eq hfirst hmiddle]
      exact Reading.mapValue_eq_ok_iff.mpr ⟨_, hitems.readItems_eq hsecond hrest, rfl⟩

theorem BarPhrase.readBranches_eq {tokens : List Token} {branches : List Expr} {text rest : Text}
    (hphrase : BarPhrase tokens branches) (hspells : Spells tokens text rest)
    (hrest : Fronts EndsExpression rest) : readBranches text = .ok (branches, rest) := by
  match hphrase with
  | .nil =>
      obtain rfl := hspells.eq_of_nil
      rw [Source.readBranches_eq]
      split
      · rename_i hbar
        exact absurd hbar (hrest.ne_cons (by decide))
      · rfl
  | .cons hitems hbranch hbranches =>
      obtain rfl := hbranch.eq_ofItems
      obtain ⟨inner, hbar, hspells⟩ := hspells.exists_of_cons
      obtain ⟨middle, hfirst, hsecond⟩ := hspells.exists_of_append
      have hmiddle := hbranches.fronts hsecond hrest
      have hread := hitems.readItems_eq hfirst hmiddle
      rw [Source.readBranches_eq, (spells_sign_iff (by decide)).mp hbar]
      exact Reading.bind_eq_ok_iff.mpr ⟨_, middle, hread,
        Reading.mapValue_eq_ok_iff.mpr ⟨_, hbranches.readBranches_eq hsecond hrest, rfl⟩⟩

theorem ExprPhrase.readExpression_eq {tokens : List Token} {expr : Expr} {text rest : Text}
    (hphrase : ExprPhrase tokens expr) (hspells : Spells tokens text rest)
    (hrest : Fronts EndsExpression rest) : readExpression text = .ok (expr, rest) := by
  match hphrase with
  | .mk hitems hbranch hbranches hexpr =>
      obtain rfl := hbranch.eq_ofItems
      obtain rfl := hexpr.eq_ofBranches
      obtain ⟨middle, hfirst, hsecond⟩ := hspells.exists_of_append
      have hread := hitems.readItems_eq hfirst (hbranches.fronts hsecond hrest)
      rw [Source.readExpression_eq]
      exact Reading.bind_eq_ok_iff.mpr ⟨_, middle, hread,
        Reading.mapValue_eq_ok_iff.mpr ⟨_, hbranches.readBranches_eq hsecond hrest, rfl⟩⟩

end

/-! ## Definitions -/

theorem readCeiling_of_phrase {tokens : List Token} {ceiling : Option Nat} {text rest : Text}
    (h : CeilingPhrase tokens ceiling) (hspells : Spells tokens text rest)
    (hrest : Fronts (· ≠ '(') rest) : readCeiling text = .ok (ceiling, rest) := by
  cases h with
  | absent =>
      obtain rfl := hspells.eq_of_nil
      unfold readCeiling
      split
      · rename_i htext
        exact absurd htext (hrest.ne_cons (by decide))
      · rfl
  | present limit =>
      obtain ⟨inner, hopen, hspells⟩ := hspells.exists_of_cons
      obtain ⟨tail, hmax, hspells⟩ := hspells.exists_of_cons
      obtain ⟨later, hlimit, hclose⟩ := hspells.exists_of_cons
      have htext := (spells_sign_iff (by decide)).mp hopen
      simp only [readCeiling, htext, spells_max_iff.mp hmax]
      refine Reading.bind_eq_ok_iff.mpr
        ⟨limit, later, require_readCount_eq_ok_iff.mpr hlimit, ?_⟩
      exact Reading.mapValue_eq_ok_iff.mpr
        ⟨(), (require_readSign_eq_ok_iff (by decide)).mpr hclose, rfl⟩

theorem readDefinitionEnd_of_phrases {name : String} {tokens tokens' : List Token}
    {ceiling : Option Nat} {body : Expr} {text before behind last rest : Text}
    (hceiling : CeilingPhrase tokens ceiling) (hfirst : Spells tokens text before)
    (hequals : Spells [.sign '='] before behind)
    (hbody : ExprPhrase tokens' body) (hsecond : Spells tokens' behind last)
    (hend : Spells [.sign ';'] last rest) :
    readDefinitionEnd name text = .ok (⟨name, ceiling, body⟩, rest) := by
  have hbefore : Fronts (· ≠ '(') before := hequals.fronts_sign.mono fun c hc => hc ▸ by decide
  have hlast : Fronts EndsExpression last := hend.fronts_sign.mono fun _ hc => .inr hc
  have hlimit := readCeiling_of_phrase hceiling hfirst hbefore
  have hread := hbody.readExpression_eq hsecond hlast
  refine Reading.bind_eq_ok_iff.mpr ⟨ceiling, before, hlimit, ?_⟩
  refine Reading.bind_eq_ok_iff.mpr
    ⟨(), behind, (require_readSign_eq_ok_iff (by decide)).mpr hequals, ?_⟩
  refine Reading.bind_eq_ok_iff.mpr ⟨body, last, Reading.expecting_eq_ok_iff.mpr hread, ?_⟩
  exact Reading.mapValue_eq_ok_iff.mpr
    ⟨(), (require_readSign_eq_ok_iff (by decide)).mpr hend, rfl⟩

theorem DefinitionPhrase.readDefinition_eq {tokens : List Token} {definition : Definition}
    {text rest : Text} (h : DefinitionPhrase tokens definition)
    (hspells : Spells tokens text rest) : readDefinition text = .found definition rest := by
  cases h with
  | mk hceiling hbody =>
      obtain ⟨later, hname, hspells⟩ := hspells.exists_of_cons
      obtain ⟨before, hfirst, hspells⟩ := hspells.exists_of_append
      obtain ⟨behind, hequals, hspells⟩ := hspells.exists_of_cons
      obtain ⟨last, hsecond, hend⟩ := hspells.exists_of_append
      rw [readDefinition, spells_name_iff.mp hname]
      exact Reading.toOutcome_eq_found_iff.mpr
        (readDefinitionEnd_of_phrases hceiling hfirst hequals hbody hsecond hend)

theorem SourcePhrase.readDefinitions_eq {tokens : List Token} {definitions : List Definition}
    {text rest : Text} (h : SourcePhrase tokens definitions) (hspells : Spells tokens text rest)
    (hrest : skipBlank rest = []) : readDefinitions text = .ok (definitions, rest) := by
  induction h generalizing text with
  | nil =>
      obtain rfl := hspells.eq_of_nil
      rw [Source.readDefinitions_eq, readDefinition, hrest]
      rfl
  | cons hdefinition _ ih =>
      obtain ⟨middle, hfirst, hsecond⟩ := hspells.exists_of_append
      rw [Source.readDefinitions_eq, hdefinition.readDefinition_eq hfirst]
      exact Reading.mapValue_eq_ok_iff.mpr ⟨_, ih hsecond, rfl⟩

end GrammarRepair.Source
