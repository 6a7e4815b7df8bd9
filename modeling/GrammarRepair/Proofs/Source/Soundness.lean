import GrammarRepair.Proofs.Source.Gaps
import GrammarRepair.Proofs.Source.Phrase
import GrammarRepair.Source.Reader

/-!
# What is read is a phrase

Whatever a reader finds, the text it has used up spells a phrase for it.  The
readers of expressions call each other on what stands behind a sign, so the
argument goes by the length of the text, as their recursion does.
-/

namespace GrammarRepair.Source

/-! ## Atoms that are not groups -/

theorem spells_of_readUpperEnd {low high : Char} {text rest : Text}
    (h : readUpperEnd low text = .ok (high, rest)) :
    (high = low ∧ rest = text) ∨ Spells [.dots, .character high] text rest := by
  rw [readUpperEnd] at h
  split at h
  · rename_i tail htext
    have hdots := spells_dots_iff.mpr htext
    have hhigh := spells_character_iff.mpr (Outcome.require_eq_ok_iff.mp h)
    exact .inr (hdots.append hhigh)
  · obtain ⟨rfl, rfl⟩ := Prod.mk.inj (Except.ok.inj h)
    exact .inl ⟨rfl, rfl⟩

theorem says_of_readRange {text rest : Text} {expr : Expr}
    (h : readRange (skipBlank text) = .found expr rest) : Says AtomPhrase expr text rest := by
  rw [readRange] at h
  split at h
  · rename_i low middle hlow
    have hlow := spells_character_iff.mpr hlow
    split at h
    · rename_i high later hupper
      obtain ⟨rfl, rfl⟩ := Outcome.found.inj h
      obtain ⟨rfl, rfl⟩ | hrange := spells_of_readUpperEnd hupper
      · exact ⟨_, .character _, hlow⟩
      · exact ⟨_, .range low high, hlow.append hrange⟩
    · simp at h
  · simp at h
  · simp at h

theorem says_of_readPlainAtom {text rest : Text} {expr : Expr}
    (h : readPlainAtom (skipBlank text) = .found expr rest) : Says AtomPhrase expr text rest := by
  unfold readPlainAtom at h
  split at h
  · obtain ⟨value, hvalue, rfl⟩ := Outcome.map_eq_found_iff.mp h
    exact ⟨_, .literal value, spells_text_iff.mpr hvalue⟩
  · exact says_of_readRange h
  · obtain ⟨name, hname, rfl⟩ := Outcome.map_eq_found_iff.mp h
    exact ⟨_, .reference name, spells_name_iff.mpr hname⟩

/-! ## What follows an atom -/

theorem says_of_readSuggestion {text rest : Text} {suggestion : Option String} (atom : Expr)
    (h : readSuggestion text = .ok (suggestion, rest)) :
    Says (SuggestionPhrase atom) (atom.withSuggestion suggestion) text rest := by
  rw [readSuggestion] at h
  split at h
  · rename_i tail htext
    obtain ⟨name, hname, rfl⟩ := Outcome.map_eq_found_iff.mp (Outcome.require_eq_ok_iff.mp h)
    exact ⟨_, .present name, spells_suggestion_iff.mpr ⟨tail, htext, hname⟩⟩
  · obtain ⟨rfl, rfl⟩ := Prod.mk.inj (Except.ok.inj h)
    exact ⟨[], .absent, .nil _⟩

/-- The three forms of bounds differ in what stands between the lower one and the
closing brace. -/
theorem exists_spells_of_readUpperBound {low : Nat} {high : Option Nat} {text before middle : Text}
    (expr : Expr) (hopen : Spells [.sign '{', .count low] text before)
    (hhigh : readUpperBound low (skipBlank before) = (high, middle)) :
    ∃ tokens last, QuantifierPhrase expr (tokens ++ [.sign '}']) (.repeated expr low high) ∧
      Spells tokens text last ∧ Gap last middle := by
  unfold readUpperBound at hhigh
  split at hhigh
  · rename_i tail hbefore
    have hcomma : Spells [.sign ','] before tail := (spells_sign_iff (by decide)).mpr hbefore
    split at hhigh
    · rename_i upper later hupper
      obtain ⟨rfl, rfl⟩ := Prod.mk.inj hhigh
      have hcount := spells_count_iff.mpr hupper
      exact ⟨_, later, .between low upper, hopen.append (hcomma.append hcount), .none later⟩
    · obtain ⟨rfl, rfl⟩ := Prod.mk.inj hhigh
      exact ⟨_, tail, .atLeast low, hopen.append hcomma, gap_skipBlank tail⟩
  · obtain ⟨rfl, rfl⟩ := Prod.mk.inj hhigh
    exact ⟨_, before, .exact low, hopen, gap_skipBlank before⟩

theorem says_of_readBounds {bounds : Nat × Option Nat} {text inner rest : Text} (expr : Expr)
    (hopen : Spells [.sign '{'] text inner) (h : readBounds inner = .ok (bounds, rest)) :
    Says (QuantifierPhrase expr) (.repeated expr bounds.1 bounds.2) text rest := by
  obtain ⟨low, before, hlow, h⟩ := Reading.bind_eq_ok_iff.mp h
  obtain ⟨_, _, hclose, h⟩ := Reading.bind_eq_ok_iff.mp h
  obtain ⟨rfl, rfl⟩ := Prod.mk.inj (Except.ok.inj h)
  have hlow := require_readCount_eq_ok_iff.mp hlow
  have hclose := (require_readSign_eq_ok_iff (by decide)).mp hclose
  obtain ⟨tokens, last, hphrase, hspells, hgap⟩ :=
    exists_spells_of_readUpperBound expr (hopen.append hlow) (Prod.eta _)
  exact ⟨_, hphrase, hspells.append (hclose.behind_gap hgap)⟩

theorem says_of_readQuantifier {text rest : Text} {quantifier : Option (Nat × Option Nat)}
    (inner : Expr) (h : readQuantifier text = .ok (quantifier, rest)) :
    Says (QuantifierPhrase inner) (inner.withQuantifier quantifier) text rest := by
  rw [readQuantifier] at h
  split at h
  · rename_i tail htext
    obtain ⟨rfl, rfl⟩ := Prod.mk.inj (Except.ok.inj h)
    exact ⟨_, .optional, (spells_sign_iff (by decide)).mpr htext⟩
  · rename_i tail htext
    obtain ⟨rfl, rfl⟩ := Prod.mk.inj (Except.ok.inj h)
    exact ⟨_, .star, (spells_sign_iff (by decide)).mpr htext⟩
  · rename_i tail htext
    obtain ⟨rfl, rfl⟩ := Prod.mk.inj (Except.ok.inj h)
    exact ⟨_, .plus, (spells_sign_iff (by decide)).mpr htext⟩
  · rename_i tail htext
    obtain ⟨bounds, hbounds, rfl⟩ := Reading.mapValue_eq_ok_iff.mp h
    exact says_of_readBounds inner ((spells_sign_iff (by decide)).mpr htext) hbounds
  · obtain ⟨rfl, rfl⟩ := Prod.mk.inj (Except.ok.inj h)
    exact ⟨[], .absent, .nil _⟩

theorem says_of_readItem {text rest : Text} {item : Expr}
    (hatom : ∀ {atom later}, readAtom text = .found atom later → Says AtomPhrase atom text later)
    (h : readItem text = .found item rest) :
    Says ItemPhrase item text rest := by
  unfold readItem endItem at h
  split at h
  · rename_i atom later hread
    obtain ⟨suggestion, middle, hsuggestion, h⟩ :=
      Reading.bind_eq_ok_iff.mp (Reading.toOutcome_eq_found_iff.mp h)
    obtain ⟨quantifier, last, hquantifier, h⟩ := Reading.bind_eq_ok_iff.mp h
    obtain ⟨rfl, rfl⟩ := Prod.mk.inj (Except.ok.inj h)
    obtain ⟨first, hfirst, hspells⟩ := hatom hread
    obtain ⟨second, hsecond, hspells'⟩ := says_of_readSuggestion atom hsuggestion
    obtain ⟨third, hthird, hspells''⟩ := says_of_readQuantifier _ hquantifier
    exact ⟨_, .mk hfirst hsecond hthird, hspells.append (hspells'.append hspells'')⟩
  · simp at h
  · simp at h

/-! ## Expressions -/

theorem spells_of_closeGroup {rest : Text} {reading : Reading Expr} {expr : Expr}
    (h : closeGroup reading = .ok (expr, rest)) :
    ∃ middle, reading = .ok (expr, middle) ∧ Spells [.sign ')'] middle rest := by
  obtain ⟨inner, middle, hinner, h⟩ := Reading.bind_eq_ok_iff.mp h
  obtain ⟨_, hsign, rfl⟩ := Reading.mapValue_eq_ok_iff.mp h
  exact ⟨middle, hinner, (require_readSign_eq_ok_iff (by decide)).mp hsign⟩

theorem sequenceOf_ofItems (items : List Expr) : SequenceOf items (.ofItems items) := by
  match items with
  | [] => exact .several (.inl rfl)
  | [item] => exact .single item
  | first :: second :: items => exact .several (.inr (Nat.le_add_left 2 items.length))

theorem choiceOf_ofBranches (branch : Expr) (branches : List Expr) :
    ChoiceOf (branch :: branches) (.ofBranches (branch :: branches)) := by
  cases branches with
  | nil => exact .single branch
  | cons second branches => exact .several (Nat.le_add_left 2 branches.length)

mutual

theorem says_of_readAtom (text : Text) {expr : Expr} {rest : Text}
    (h : readAtom text = .found expr rest) : Says AtomPhrase expr text rest := by
  rw [readAtom_eq] at h
  split at h
  · rename_i inner htext
    have hless := (behind_sign htext).2
    obtain ⟨middle, hinner, hclose⟩ := spells_of_closeGroup (Reading.toOutcome_eq_found_iff.mp h)
    obtain ⟨tokens, hphrase, hspells⟩ := says_of_readExpression inner hinner
    have hopen : Spells [.sign '('] text inner := (spells_sign_iff (by decide)).mpr htext
    exact ⟨_, .group hphrase, hopen.append (hspells.append hclose)⟩
  · exact says_of_readPlainAtom h
termination_by 4 * text.length + 0

theorem says_of_readItems (text : Text) {items : List Expr} {rest : Text}
    (h : readItems text = .ok (items, rest)) : Says BranchPhrase items text rest := by
  rw [readItems_eq] at h
  split at h
  · rename_i item later hitem
    have hless := (readItem_progresses text).length_lt hitem
    obtain ⟨items, hitems, rfl⟩ := Reading.mapValue_eq_ok_iff.mp h
    obtain ⟨first, hfirst, hspells⟩ := says_of_readItem (says_of_readAtom text) hitem
    obtain ⟨second, hsecond, hspells'⟩ := says_of_readItems later hitems
    exact ⟨_, .cons hfirst hsecond, hspells.append hspells'⟩
  · obtain ⟨rfl, rfl⟩ := Prod.mk.inj (Except.ok.inj h)
    exact ⟨[], .nil, .nil _⟩
  · simp at h
termination_by 4 * text.length + 1

theorem says_of_readBranches (text : Text) {branches : List Expr} {rest : Text}
    (h : readBranches text = .ok (branches, rest)) : Says BarPhrase branches text rest := by
  rw [readBranches_eq] at h
  split at h
  · rename_i inner htext
    have hless := (behind_sign htext).2
    obtain ⟨items, later, hitems, h⟩ := Reading.bind_eq_ok_iff.mp h
    have hlater := (readItems_keeps inner).length_le hitems
    obtain ⟨branches, hbranches, rfl⟩ := Reading.mapValue_eq_ok_iff.mp h
    obtain ⟨first, hfirst, hspells⟩ := says_of_readItems inner hitems
    obtain ⟨second, hsecond, hspells'⟩ := says_of_readBranches later hbranches
    have hbar : Spells [.sign '|'] text inner := (spells_sign_iff (by decide)).mpr htext
    exact ⟨_, .cons hfirst (sequenceOf_ofItems items) hsecond,
      hbar.append (hspells.append hspells')⟩
  · obtain ⟨rfl, rfl⟩ := Prod.mk.inj (Except.ok.inj h)
    exact ⟨[], .nil, .nil _⟩
termination_by 4 * text.length + 2

theorem says_of_readExpression (text : Text) {expr : Expr} {rest : Text}
    (h : readExpression text = .ok (expr, rest)) : Says ExprPhrase expr text rest := by
  rw [readExpression_eq] at h
  obtain ⟨items, later, hitems, h⟩ := Reading.bind_eq_ok_iff.mp h
  have hlater := (readItems_keeps text).length_le hitems
  obtain ⟨branches, hbranches, rfl⟩ := Reading.mapValue_eq_ok_iff.mp h
  obtain ⟨first, hfirst, hspells⟩ := says_of_readItems text hitems
  obtain ⟨second, hsecond, hspells'⟩ := says_of_readBranches later hbranches
  exact ⟨_, .mk hfirst (sequenceOf_ofItems items) hsecond (choiceOf_ofBranches _ branches),
    hspells.append hspells'⟩
termination_by 4 * text.length + 3

end

/-! ## Definitions -/

theorem says_of_readCeiling {text rest : Text} {ceiling : Option Nat}
    (h : readCeiling text = .ok (ceiling, rest)) : Says CeilingPhrase ceiling text rest := by
  rw [readCeiling] at h
  split at h
  · rename_i inner htext
    split at h
    · rename_i tail hinner
      obtain ⟨limit, later, hlimit, h⟩ := Reading.bind_eq_ok_iff.mp h
      obtain ⟨_, hclose, rfl⟩ := Reading.mapValue_eq_ok_iff.mp h
      have hopen : Spells [.sign '('] text inner := (spells_sign_iff (by decide)).mpr htext
      have hmax := spells_max_iff.mpr hinner
      have hlimit := require_readCount_eq_ok_iff.mp hlimit
      have hclose := (require_readSign_eq_ok_iff (by decide)).mp hclose
      exact ⟨_, .present limit, hopen.append (hmax.append (hlimit.append hclose))⟩
    · obtain ⟨rfl, rfl⟩ := Prod.mk.inj (Except.ok.inj h)
      exact ⟨[], .absent, .nil _⟩
  · obtain ⟨rfl, rfl⟩ := Prod.mk.inj (Except.ok.inj h)
    exact ⟨[], .absent, .nil _⟩

theorem says_of_readDefinition {text rest : Text} {definition : Definition}
    (h : readDefinition text = .found definition rest) :
    Says DefinitionPhrase definition text rest := by
  rw [readDefinition] at h
  split at h
  · rename_i name later hname
    obtain ⟨ceiling, before, hceiling, h⟩ :=
      Reading.bind_eq_ok_iff.mp (Reading.toOutcome_eq_found_iff.mp h)
    obtain ⟨_, behind, hequals, h⟩ := Reading.bind_eq_ok_iff.mp h
    obtain ⟨body, last, hbody, h⟩ := Reading.bind_eq_ok_iff.mp h
    obtain ⟨_, hend, rfl⟩ := Reading.mapValue_eq_ok_iff.mp h
    have hname := spells_name_iff.mpr hname
    obtain ⟨first, hfirst, hspells⟩ := says_of_readCeiling hceiling
    have hequals := (require_readSign_eq_ok_iff (by decide)).mp hequals
    obtain ⟨second, hsecond, hspells'⟩ :=
      says_of_readExpression behind (Reading.expecting_eq_ok_iff.mp hbody)
    have hend := (require_readSign_eq_ok_iff (by decide)).mp hend
    exact ⟨_, .mk hfirst hsecond,
      hname.append (hspells.append (hequals.append (hspells'.append hend)))⟩
  · simp at h
  · simp at h

theorem says_of_readDefinitions {text rest : Text} {definitions : List Definition}
    (h : readDefinitions text = .ok (definitions, rest)) :
    Says SourcePhrase definitions text rest := by
  fun_induction readDefinitions text generalizing definitions with
  | case1 text definition later hread ih =>
      obtain ⟨definitions, hdefinitions, rfl⟩ := Reading.mapValue_eq_ok_iff.mp h
      obtain ⟨first, hfirst, hspells⟩ := says_of_readDefinition hread
      obtain ⟨second, hsecond, hspells'⟩ := ih hdefinitions
      exact ⟨_, .cons hfirst hsecond, hspells.append hspells'⟩
  | case2 text =>
      obtain ⟨rfl, rfl⟩ := Prod.mk.inj (Except.ok.inj h)
      exact ⟨[], .nil, .nil _⟩
  | case3 => simp at h

end GrammarRepair.Source
