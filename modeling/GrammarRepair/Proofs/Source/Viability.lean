import GrammarRepair.Proofs.Source.Stuck
import Mathlib.Data.List.Flatten

/-!
# Errors stand where a source could go on

Wherever reading gets stuck, the text in front of that place is the beginning of
a source that is read.  The tokens so far begin a phrase, whose other tokens can
be written on lines of their own; that is shown for each reader as soundness is,
from the readers that it calls.  A token that was begun, such as a suggestion
after its at sign, is ended first.
-/

namespace GrammarRepair.Source

variable {text middle rest : Text} {tokens first : List Token} {failure : Stuck}

/-! ## Phrases that lack their end -/

theorem begun_atom_of_expr {expr : Expr} (h : ExprPhrase tokens expr) :
    Begun AtomPhrase (.sign '(' :: tokens) :=
  ⟨[.sign ')'], expr, by simpa using Token.writable_sign (by decide), .group h⟩

theorem begun_item_of_suggestion {atom inner : Expr} (hatom : AtomPhrase first atom)
    (h : SuggestionPhrase atom tokens inner) : Begun ItemPhrase (first ++ tokens) := by
  have hitem := ItemPhrase.mk hatom h .absent
  rw [List.append_nil] at hitem
  exact .of_phrase hitem

theorem begun_branch_of_item {item : Expr} (h : ItemPhrase tokens item) :
    Begun BranchPhrase tokens := by
  have hbranch := BranchPhrase.cons h .nil
  rw [List.append_nil] at hbranch
  exact .of_phrase hbranch

theorem begun_bars_of_branch {items : List Expr} (h : BranchPhrase tokens items) :
    Begun BarPhrase (.sign '|' :: tokens) := by
  have hbars := BarPhrase.cons h (sequenceOf_ofItems items) .nil
  rw [List.append_nil] at hbars
  exact .of_phrase hbars

theorem begun_expr_of_bars {items branches : List Expr} (hfirst : BranchPhrase first items)
    (h : BarPhrase tokens branches) : Begun ExprPhrase (first ++ tokens) :=
  .of_phrase (.mk hfirst (sequenceOf_ofItems items) h (choiceOf_ofBranches _ branches))

theorem begun_expr_of_branch {items : List Expr} (h : BranchPhrase tokens items) :
    Begun ExprPhrase tokens := by
  have hexpr := begun_expr_of_bars h .nil
  rwa [List.append_nil] at hexpr

/-- The words that end a definition can be written. -/
theorem begun_definition_of_ceiling {name : String} {ceiling : Option Nat}
    (h : CeilingPhrase tokens ceiling) : Begun DefinitionPhrase ([.name name] ++ tokens) := by
  have hbody : ExprPhrase [] (.sequence []) :=
    .mk .nil (.several (.inl rfl)) .nil (.single _)
  refine ⟨[.sign '=', .sign ';'], _, ?_, .mk h hbody⟩
  simpa using ⟨Token.writable_sign (by decide), Token.writable_sign (by decide)⟩

theorem begun_definition_of_body {name : String} {ceiling : Option Nat} {body : Expr}
    (hceiling : CeilingPhrase first ceiling) (h : ExprPhrase tokens body) :
    Begun DefinitionPhrase ([.name name] ++ (first ++ [.sign '=']) ++ tokens) := by
  have hdefinition : DefinitionPhrase
      ([.name name] ++ (first ++ [.sign '=']) ++ tokens ++ [.sign ';'])
      ⟨name, ceiling, body⟩ := by
    simpa using DefinitionPhrase.mk hceiling h
  exact ⟨[.sign ';'], _, by simpa using Token.writable_sign (by decide), hdefinition⟩

theorem begun_source_of_definition {definition : Definition}
    (h : DefinitionPhrase tokens definition) : Begun SourcePhrase tokens := by
  have hsource := SourcePhrase.cons h .nil
  rw [List.append_nil] at hsource
  exact .of_phrase hsource

/-! ## Atoms that are not groups -/

theorem blocked_of_readUpperEnd {low : Char} (hlow : Spells [.character low] text middle)
    (h : readUpperEnd low middle = .error failure) : Blocked AtomPhrase text failure.rest := by
  rw [readUpperEnd] at h
  split at h
  · rename_i tail hmiddle
    have hdots := spells_dots_iff.mpr hmiddle
    refine (blocked_of_require_readCharacter h).within (hlow.append hdots) ?_
    rintro tokens high rfl
    exact .of_phrase (.range low high)
  · simp at h

theorem blocked_of_readRange (h : readRange (skipBlank text) = .stuck failure) :
    Blocked AtomPhrase text failure.rest := by
  rw [readRange] at h
  split at h
  · rename_i low middle hlow
    split at h
    · simp at h
    · rename_i hupper
      obtain rfl := Outcome.stuck.inj h
      exact blocked_of_readUpperEnd (spells_character_iff.mpr hlow) hupper
  · simp at h
  · rename_i hlow
    obtain rfl := Outcome.stuck.inj h
    refine (blocked_of_readCharacter hlow).imp ?_
    rintro tokens c rfl
    exact .of_phrase (.character c)

theorem blocked_of_readPlainAtom (h : readPlainAtom (skipBlank text) = .stuck failure) :
    Blocked AtomPhrase text failure.rest := by
  unfold readPlainAtom at h
  split at h
  · refine (blocked_of_readText (Outcome.map_eq_stuck_iff.mp h)).imp ?_
    rintro tokens value rfl
    exact .of_phrase (.literal value)
  · exact blocked_of_readRange h
  · exact absurd (Outcome.map_eq_stuck_iff.mp h) ((readName_immediate _).ne_stuck _)

/-! ## What follows an atom -/

theorem blocked_of_readSuggestion (atom : Expr) (h : readSuggestion text = .error failure) :
    Blocked (SuggestionPhrase atom) text failure.rest := by
  rw [readSuggestion] at h
  split at h
  · rename_i tail htext
    have hgap : Gap text ('@' :: tail) := htext ▸ gap_skipBlank text
    have hbegun : Begun (SuggestionPhrase atom) ([] ++ [.suggestion "a"]) :=
      .of_phrase (.present "a")
    obtain hname | ⟨name, rest, hname⟩ := readName_immediate tail
    · rw [hname] at h
      obtain rfl := Except.error.inj h
      exact .inside hbegun (.nil text) (List.cons_ne_nil _ _) Token.opened_suggestion hgap
    · rw [hname] at h
      simp [Outcome.map, Outcome.require] at h
  · simp at h

theorem blocked_of_readBounds (expr : Expr) (hopen : Spells [.sign '{'] text middle)
    (h : readBounds middle = .error failure) :
    Blocked (QuantifierPhrase expr) text failure.rest := by
  have hbrace : ∀ token ∈ [Token.sign '}'], token.Writable := by
    simpa using Token.writable_sign (by decide)
  obtain hcount | ⟨low, before, hlow, h⟩ := Reading.bind_eq_error_iff.mp h
  · have hbegun : Begun (QuantifierPhrase expr) [.sign '{'] :=
      ⟨[.count 1, .sign '}'], _,
        List.forall_mem_cons.mpr ⟨Token.writable_count_one, hbrace⟩, .exact 1⟩
    exact .between hbegun hopen ((readCount_immediate _).gap_of_require hcount)
  · have hlow := require_readCount_eq_ok_iff.mp hlow
    -- Whatever the bounds are, only the brace is missing.
    obtain ⟨tokens, last, hphrase, hspells, hgap⟩ :=
      exists_spells_of_readUpperBound expr (hopen.append hlow) (Prod.eta _)
    obtain hclose | ⟨_, _, _, h⟩ := Reading.bind_eq_error_iff.mp h
    · have hbegun : Begun (QuantifierPhrase expr) tokens := ⟨[.sign '}'], _, hbrace, hphrase⟩
      exact .between hbegun hspells
        (hgap.trans ((readSign_immediate _ _).gap_of_require hclose))
    · simp at h

theorem blocked_of_readQuantifier (inner : Expr) (h : readQuantifier text = .error failure) :
    Blocked (QuantifierPhrase inner) text failure.rest := by
  rw [readQuantifier] at h
  split at h
  · simp at h
  · simp at h
  · simp at h
  · rename_i tail htext
    exact blocked_of_readBounds inner ((spells_sign_iff (by decide)).mpr htext)
      (Reading.mapValue_eq_error_iff.mp h)
  · simp at h

theorem blocked_of_readItem
    (hatom : ∀ {failure}, readAtom text = .stuck failure → Blocked AtomPhrase text failure.rest)
    (h : readItem text = .stuck failure) : Blocked ItemPhrase text failure.rest := by
  unfold readItem endItem at h
  split at h
  · rename_i atom later hread
    obtain ⟨first, hfirst, hspells⟩ := says_of_readAtom text hread
    obtain hsuggestion | ⟨suggestion, middle, hsuggestion, h⟩ :=
      Reading.bind_eq_error_iff.mp (Reading.toOutcome_eq_stuck_iff.mp h)
    · refine (blocked_of_readSuggestion atom hsuggestion).within hspells ?_
      intro tokens inner hphrase
      exact begun_item_of_suggestion hfirst hphrase
    · obtain ⟨second, hsecond, hspells'⟩ := says_of_readSuggestion atom hsuggestion
      obtain hquantifier | ⟨quantifier, last, _, h⟩ := Reading.bind_eq_error_iff.mp h
      · refine (blocked_of_readQuantifier (atom.withSuggestion suggestion) hquantifier).within
          (hspells.append hspells') ?_
        intro tokens item hphrase
        rw [List.append_assoc]
        exact .of_phrase (.mk hfirst hsecond hphrase)
      · simp at h
  · simp at h
  · rename_i hread
    obtain rfl := Outcome.stuck.inj h
    refine (hatom hread).imp ?_
    intro tokens atom hphrase
    exact .of_phrase hphrase.item

/-! ## Expressions

What was read in front of the error is a phrase by soundness; the error itself is
one of a reader that was called, on a text that is shorter or stands lower in the
order of the readers. -/

/-- A group gets stuck inside, or for want of its parenthesis. -/
theorem eq_error_or_gap_of_closeGroup {reading : Reading Expr}
    (h : closeGroup reading = .error failure) :
    reading = .error failure ∨
      ∃ expr middle, reading = .ok (expr, middle) ∧ Gap middle failure.rest := by
  obtain hinner | ⟨expr, middle, hinner, h⟩ := Reading.bind_eq_error_iff.mp h
  · exact .inl hinner
  · have hclose := Reading.mapValue_eq_error_iff.mp h
    exact .inr ⟨expr, middle, hinner, (readSign_immediate _ _).gap_of_require hclose⟩

mutual

theorem blocked_of_readAtom (text : Text) {failure : Stuck} (h : readAtom text = .stuck failure) :
    Blocked AtomPhrase text failure.rest := by
  rw [readAtom_eq] at h
  split at h
  · rename_i inner htext
    have hless := (behind_sign htext).2
    have hopen : Spells [.sign '('] text inner := (spells_sign_iff (by decide)).mpr htext
    obtain hinner | ⟨expr, middle, hinner, hgap⟩ :=
      eq_error_or_gap_of_closeGroup (Reading.toOutcome_eq_stuck_iff.mp h)
    · exact (blocked_of_readExpression inner hinner).within hopen fun _ _ => begun_atom_of_expr
    · obtain ⟨tokens, hphrase, hspells⟩ := says_of_readExpression inner hinner
      exact .between (begun_atom_of_expr hphrase) (hopen.append hspells) hgap
  · exact blocked_of_readPlainAtom h
termination_by 4 * text.length + 0

theorem blocked_of_readItems (text : Text) {failure : Stuck}
    (h : readItems text = .error failure) : Blocked BranchPhrase text failure.rest := by
  rw [readItems_eq] at h
  split at h
  · rename_i item later hitem
    have hless := (readItem_progresses text).length_lt hitem
    obtain ⟨first, hfirst, hspells⟩ := says_of_readItem (says_of_readAtom text) hitem
    refine (blocked_of_readItems later (Reading.mapValue_eq_error_iff.mp h)).within hspells ?_
    intro tokens items hphrase
    exact .of_phrase (.cons hfirst hphrase)
  · simp at h
  · rename_i hitem
    obtain rfl := Except.error.inj h
    refine (blocked_of_readItem (blocked_of_readAtom text) hitem).imp ?_
    intro tokens item hphrase
    exact begun_branch_of_item hphrase
termination_by 4 * text.length + 1

theorem blocked_of_readBranches (text : Text) {failure : Stuck}
    (h : readBranches text = .error failure) : Blocked BarPhrase text failure.rest := by
  rw [readBranches_eq] at h
  split at h
  · rename_i inner htext
    have hless := (behind_sign htext).2
    have hbar : Spells [.sign '|'] text inner := (spells_sign_iff (by decide)).mpr htext
    obtain hitems | ⟨items, later, hitems, h⟩ := Reading.bind_eq_error_iff.mp h
    · exact (blocked_of_readItems inner hitems).within hbar fun _ _ => begun_bars_of_branch
    · have hlater := (readItems_keeps inner).length_le hitems
      obtain ⟨first, hfirst, hspells⟩ := says_of_readItems inner hitems
      refine (blocked_of_readBranches later (Reading.mapValue_eq_error_iff.mp h)).within
        (hbar.append hspells) ?_
      intro tokens branches hphrase
      exact .of_phrase (.cons hfirst (sequenceOf_ofItems items) hphrase)
  · simp at h
termination_by 4 * text.length + 2

theorem blocked_of_readExpression (text : Text) {failure : Stuck}
    (h : readExpression text = .error failure) : Blocked ExprPhrase text failure.rest := by
  rw [readExpression_eq] at h
  obtain hitems | ⟨items, later, hitems, h⟩ := Reading.bind_eq_error_iff.mp h
  · exact (blocked_of_readItems text hitems).imp fun _ _ => begun_expr_of_branch
  · have hlater := (readItems_keeps text).length_le hitems
    obtain ⟨first, hfirst, hspells⟩ := says_of_readItems text hitems
    refine (blocked_of_readBranches later (Reading.mapValue_eq_error_iff.mp h)).within hspells ?_
    intro tokens branches hphrase
    exact begun_expr_of_bars hfirst hphrase
termination_by 4 * text.length + 3

end

/-! ## Definitions -/

theorem blocked_of_readCeiling (h : readCeiling text = .error failure) :
    Blocked CeilingPhrase text failure.rest := by
  have hparen : ∀ token ∈ [Token.sign ')'], token.Writable := by
    simpa using Token.writable_sign (by decide)
  rw [readCeiling] at h
  split at h
  · rename_i inner htext
    split at h
    · rename_i tail hinner
      have hopen : Spells [.sign '('] text inner := (spells_sign_iff (by decide)).mpr htext
      have hmax := hopen.append (spells_max_iff.mpr hinner)
      obtain hcount | ⟨limit, later, hlimit, h⟩ := Reading.bind_eq_error_iff.mp h
      · have hbegun : Begun CeilingPhrase [.sign '(', .max] :=
          ⟨[.count 1, .sign ')'], _,
            List.forall_mem_cons.mpr ⟨Token.writable_count_one, hparen⟩, .present 1⟩
        exact .between hbegun hmax ((readCount_immediate _).gap_of_require hcount)
      · have hclose := Reading.mapValue_eq_error_iff.mp h
        have hbegun : Begun CeilingPhrase [.sign '(', .max, .count limit] :=
          ⟨[.sign ')'], _, hparen, .present limit⟩
        exact .between hbegun (hmax.append (require_readCount_eq_ok_iff.mp hlimit))
          ((readSign_immediate _ _).gap_of_require hclose)
    · simp at h
  · simp at h

theorem blocked_of_readDefinitionEnd {name : String} (hname : Spells [.name name] text middle)
    (h : readDefinitionEnd name middle = .error failure) :
    Blocked DefinitionPhrase text failure.rest := by
  obtain hceiling | ⟨ceiling, before, hceiling, h⟩ := Reading.bind_eq_error_iff.mp h
  · exact (blocked_of_readCeiling hceiling).within hname fun _ _ => begun_definition_of_ceiling
  · obtain ⟨first, hfirst, hspells⟩ := says_of_readCeiling hceiling
    obtain hequals | ⟨_, behind, hequals, h⟩ := Reading.bind_eq_error_iff.mp h
    · exact .between (begun_definition_of_ceiling hfirst) (hname.append hspells)
        ((readSign_immediate _ _).gap_of_require hequals)
    · have hequals := (require_readSign_eq_ok_iff (by decide)).mp hequals
      have hhead := hname.append (hspells.append hequals)
      obtain hbody | ⟨body, last, hbody, h⟩ := Reading.bind_eq_error_iff.mp h
      · obtain ⟨inner, hinner, hrest⟩ := Reading.exists_error_of_expecting hbody
        rw [← hrest]
        refine (blocked_of_readExpression behind hinner).within hhead ?_
        intro tokens body hphrase
        exact begun_definition_of_body hfirst hphrase
      · obtain ⟨second, hsecond, hspells'⟩ :=
          says_of_readExpression behind (Reading.expecting_eq_ok_iff.mp hbody)
        have hend := Reading.mapValue_eq_error_iff.mp h
        exact .between (begun_definition_of_body hfirst hsecond) (hhead.append hspells')
          ((readSign_immediate _ _).gap_of_require hend)

theorem blocked_of_readDefinition (h : readDefinition text = .stuck failure) :
    Blocked DefinitionPhrase text failure.rest := by
  rw [readDefinition] at h
  split at h
  · rename_i name later hname
    exact blocked_of_readDefinitionEnd (spells_name_iff.mpr hname)
      (Reading.toOutcome_eq_stuck_iff.mp h)
  · simp at h
  · rename_i hname
    exact absurd hname ((readName_immediate _).ne_stuck _)

theorem blocked_of_readDefinitions (h : readDefinitions text = .error failure) :
    Blocked SourcePhrase text failure.rest := by
  fun_induction readDefinitions text with
  | case1 text definition later hread ih =>
      obtain ⟨first, hfirst, hspells⟩ := says_of_readDefinition hread
      refine (ih (Reading.mapValue_eq_error_iff.mp h)).within hspells ?_
      intro tokens definitions hphrase
      exact .of_phrase (.cons hfirst hphrase)
  | case2 text => simp at h
  | case3 text failure hread =>
      obtain rfl := Except.error.inj h
      exact (blocked_of_readDefinition hread).imp fun _ _ => begun_source_of_definition

theorem blocked_of_readToEnd (h : readToEnd text = .error failure) :
    Blocked SourcePhrase text failure.rest := by
  obtain hread | ⟨definitions, rest, hread, h⟩ := Reading.bind_eq_error_iff.mp h
  · exact blocked_of_readDefinitions hread
  · obtain ⟨tokens, hphrase, hspells⟩ := says_of_readDefinitions hread
    have hgap := gap_skipBlank rest
    dsimp only at h
    split at h
    · simp at h
    · obtain rfl := Except.error.inj h
      exact .between (.of_phrase hphrase) hspells hgap

/-! ## Sources -/

/-- More text makes a source of it that is read. -/
def Extensible (front : Text) : Prop :=
  ∃ completion definitions, read (front ++ completion) = .ok definitions

/-- The text ends inside of a string or character literal that begins behind
tokens, and in which nothing is wrong so far. -/
def EndsInLiteral (front : Text) : Prop :=
  ∃ tokens middle part, Spells tokens front middle ∧ Gap middle part ∧ OpenLiteral part

theorem OpenLiteral.exists_cons {part : Text} (h : OpenLiteral part) :
    ∃ c tail, part = c :: tail ∧ c ∉ whiteSpace := by
  cases h with
  | text hbody => exact ⟨'"', _, rfl, by decide⟩
  | character => exact ⟨'\'', [], rfl, by decide⟩

theorem Token.OpenedBy.exists_cons {token : Token} {part : Text} (h : token.OpenedBy part)
    (hpart : part ≠ []) : ∃ c tail, part = c :: tail ∧ c ∉ whiteSpace := by
  obtain ⟨last, hwrites⟩ := h
  match part with
  | [] => exact absurd rfl hpart
  | c :: tail =>
      obtain ⟨d, later, hwritten, hstarts⟩ := (hwrites []).exists_starts
      obtain rfl := (List.cons.inj hwritten).1
      exact ⟨c, tail, rfl, fun hc => hstarts.not_mem_gap (List.mem_cons_of_mem _ hc)⟩

/-- Behind text that is not white space, everything can be replaced. -/
theorem Spells.exists_replace_behind {part : Text} (h : Spells tokens text middle)
    (hpart : ∃ c tail, part = c :: tail ∧ c ∉ whiteSpace) (hgap : Gap middle (part ++ rest)) :
    ∃ front, text = front ++ (part ++ rest) ∧
      ∀ new, ∃ middle,
        Spells tokens (front ++ (part ++ new)) middle ∧ Gap middle (part ++ new) := by
  obtain ⟨c, tail, rfl, hblank⟩ := hpart
  obtain ⟨front, rfl, hreplace⟩ := h.exists_replace hgap
  exact ⟨front, rfl, fun new => hreplace _ (.same hblank _ _)⟩

/-- A text that says something, up to a gap at its end, is the beginning of a
source. -/
theorem extensible_of_phrase {front completion : Text} {later : List Token}
    {definitions : List Definition} (hphrase : SourcePhrase (tokens ++ later) definitions)
    (hspells : Spells tokens (front ++ completion) middle) (hgap : Gap middle text)
    (hlater : Spells later text ['\n']) : Extensible front := by
  have hfeed : Gap ['\n'] [] := .blank (by decide) (.none [])
  obtain ⟨last, hlast, hend⟩ := hlater.exists_behind_gap hgap hfeed
  exact ⟨completion, definitions,
    read_eq_ok_iff.mpr ⟨last, ⟨_, hphrase, hspells.append hlast⟩, hend⟩⟩

theorem exists_extensible_of_begun (hbegun : Begun SourcePhrase tokens)
    (hspells : Spells tokens text middle) (hgap : Gap middle rest) :
    ∃ front, text = front ++ rest ∧ Extensible front := by
  obtain ⟨later, definitions, hlater, hphrase⟩ := hbegun
  obtain ⟨completion, hcompletion⟩ := exists_spells_of_writable hlater
  obtain ⟨front, rfl, hreplace⟩ := hspells.exists_replace hgap
  obtain ⟨middle, hspells, hgap⟩ := hreplace _ (.feed completion rest)
  exact ⟨front, rfl, extensible_of_phrase hphrase hspells hgap hcompletion⟩

/-- A token that was begun is ended, and then the phrase. -/
theorem extensible_of_opened {token : Token} {front part : Text}
    (hbegun : Begun SourcePhrase (tokens ++ [token])) (hopened : token.OpenedBy part)
    (hreplace : ∀ new, ∃ middle,
      Spells tokens (front ++ (part ++ new)) middle ∧ Gap middle (part ++ new)) :
    Extensible (front ++ part) := by
  obtain ⟨later, definitions, hlater, hphrase⟩ := hbegun
  obtain ⟨completion, hcompletion⟩ := exists_spells_of_writable hlater
  obtain ⟨last, hwrites⟩ := hopened
  obtain ⟨middle, hspells, hgap⟩ := hreplace (last ++ '\n' :: completion)
  rw [List.append_assoc] at hphrase
  rw [← List.append_assoc] at hspells
  rw [← List.append_assoc] at hgap
  have htoken : Spells (token :: later) (part ++ last ++ '\n' :: completion) ['\n'] :=
    .cons (.none _) (hwrites completion) hcompletion
  exact extensible_of_phrase hphrase hspells hgap htoken

/-- Where the reading of a source gets stuck, the text in front can be extended, or
it ends with a bad escape and the text up to the backslash can be. -/
theorem Blocked.exists_extensible (h : Blocked SourcePhrase text rest) :
    ∃ consumed, text = consumed ++ rest ∧
      (Extensible consumed ∨
        ∃ front e, consumed = front ++ ['\\', e] ∧ escapeValue? e = none ∧
          EndsInLiteral front ∧ Extensible (front ++ ['\\'])) := by
  cases h with
  | between hbegun hspells hgap =>
      obtain ⟨front, htext, hfront⟩ := exists_extensible_of_begun hbegun hspells hgap
      exact ⟨front, htext, .inl hfront⟩
  | @inside _ _ _ part hbegun hspells hpart hopened hgap =>
      obtain ⟨front, rfl, hreplace⟩ :=
        hspells.exists_replace_behind (hopened.exists_cons hpart) hgap
      exact ⟨front ++ part, by simp, .inl (extensible_of_opened hbegun hopened hreplace)⟩
  | @escape tokens _ _ part e hbegun hspells hliteral hopened hescape hgap =>
      obtain ⟨front, rfl, hreplace⟩ := hspells.exists_replace_behind hliteral.exists_cons hgap
      refine ⟨front ++ part ++ ['\\', e], by simp, .inr ⟨front ++ part, e, rfl, hescape, ?_, ?_⟩⟩
      · obtain ⟨middle, hspells, hgap⟩ := hreplace []
        rw [List.append_nil] at hspells hgap
        exact ⟨tokens, middle, part, hspells, hgap, hliteral⟩
      · rw [List.append_assoc]
        refine extensible_of_opened hbegun hopened fun new => ?_
        have hnew := hreplace ('\\' :: new)
        rwa [List.append_cons part '\\' new] at hnew

/-- A source that is not read is in error at one place of it, and the text in
front of that place can be extended to a source that is read.  Behind a bad escape
in a string or character literal that is so for the text up to the backslash. -/
theorem extensible_of_read_error {source : Text} {error : SyntaxError}
    (h : read source = .error error) :
    ∃ consumed rest, source = consumed ++ rest ∧ Position.after consumed = error.position ∧
      (∀ front, front <+: source → Position.after front = error.position → front = consumed) ∧
      (Extensible consumed ∨
        ∃ front e, consumed = front ++ ['\\', e] ∧ escapeValue? e = none ∧
          EndsInLiteral front ∧ Extensible (front ++ ['\\'])) := by
  rw [read] at h
  cases hread : readToEnd source with
  | ok definitions =>
      rw [hread] at h
      simp [Except.mapError] at h
  | error failure =>
      rw [hread] at h
      obtain rfl := Except.error.inj h
      obtain ⟨consumed, hsource, hextensible⟩ := (blocked_of_readToEnd hread).exists_extensible
      have hplace : Position.after consumed = Position.before source failure.rest := by
        rw [hsource, Position.before_append]
      refine ⟨consumed, failure.rest, hsource, hplace, ?_, hextensible⟩
      intro front hfront hafter
      exact Position.eq_of_after_eq hfront ⟨failure.rest, hsource.symm⟩ (hafter.trans hplace.symm)

/-- A bad escape at the upper end of a range, behind a comment and inside of a
group. -/
def badEscapeSource : Text :=
  "a = (\"b\" # c\n | 'd'..'\\q');".toList

theorem read_badEscapeSource : read badEscapeSource = .error ⟨⟨2, 12⟩, [.body]⟩ := by
  decide +kernel

theorem extensible_of_read_badEscapeSource :
    read badEscapeSource = .error ⟨⟨2, 12⟩, [.body]⟩ ∧
      ∃ consumed rest, badEscapeSource = consumed ++ rest ∧
        Position.after consumed = ⟨2, 12⟩ ∧
        (∀ front, front <+: badEscapeSource → Position.after front = ⟨2, 12⟩ →
          front = consumed) ∧
        (Extensible consumed ∨
          ∃ front e, consumed = front ++ ['\\', e] ∧ escapeValue? e = none ∧
            EndsInLiteral front ∧ Extensible (front ++ ['\\'])) :=
  ⟨read_badEscapeSource, extensible_of_read_error read_badEscapeSource⟩

end GrammarRepair.Source
