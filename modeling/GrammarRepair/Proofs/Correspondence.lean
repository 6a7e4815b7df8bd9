import GrammarRepair.Proofs.Language.Loading
import GrammarRepair.Proofs.Renaming
import Mathlib.Logic.Equiv.Basic

/-!
# Builders that differ in minted names

Two runs of the same steps draw different names.  Their builders correspond
under a permutation of the names: the grammar of the second is the grammar of
the first, renamed.  The permutation fixes the names that are given from
outside, the own names.

Where the first run mints `a` and the second one `b`, the permutation is
followed by a swap of what became of `a` with `b`.  Both names are new, so the
swap touches nothing that is in use, and no other names are moved that were not
moved before.
-/

namespace GrammarRepair

variable {own : List String} {σ τ υ : Equiv.Perm String}

namespace Builder

open Source (addedNames mem_addedNames_iff)

/-- The names that rules may use: the own names and those that have a rule. -/
def Knows (own : List String) (builder : Builder) (name : String) : Prop :=
  name ∈ own ∨ builder.grammar.contains name = true

/-- The second builder is the first one with other names in place of those that
were minted. -/
structure Corresponds
    (own : List String) (σ : Equiv.Perm String) (first second : Builder) : Prop where
  fixed : ∀ name ∈ own, σ name = name
  grammar : second.grammar = first.grammar.rename σ
  suggestions : second.suggestions = first.suggestions
  known : ∀ name rule, first.grammar.find? name = some rule →
    ∀ other ∈ rule.names, first.Knows own other

/-- Two runs go on: the builders still correspond, under a permutation that
agrees with the earlier one on all names that were known and moves no more names
than have been added.  No name is lost. -/
structure Advances
    (own : List String) (σ τ : Equiv.Perm String) (first second first' second' : Builder) :
    Prop where
  corresponds : Corresponds own τ first' second'
  agrees : ∀ name, first.Knows own name → τ name = σ name
  keeps_first : ∀ name, first.grammar.contains name = true → first'.grammar.contains name = true
  keeps_second : ∀ name, second.grammar.contains name = true → second'.grammar.contains name = true
  moves : ∀ name, τ name ≠ name →
    σ name ≠ name ∨ name ∈ addedNames first first' ∨ name ∈ addedNames second second'

variable {first second first' second' first'' second'' : Builder}

/-- Names that are added and kept are added in the end. -/
theorem addedNames_subset_of_later
    {before middle after : Builder}
    (hkeeps : ∀ name, middle.grammar.contains name = true → after.grammar.contains name = true) :
    addedNames before middle ⊆ addedNames before after := by
  intro name hname
  rw [mem_addedNames_iff] at hname ⊢
  exact hname.imp_left (hkeeps name)

/-- Names that are added later were not there at first, if none was lost. -/
theorem addedNames_subset_of_earlier
    {before middle after : Builder}
    (hkept : ∀ name, before.grammar.contains name = true → middle.grammar.contains name = true) :
    addedNames middle after ⊆ addedNames before after := by
  intro name hname
  rw [mem_addedNames_iff] at hname ⊢
  refine hname.imp_right fun hnew => ?_
  by_contra hold
  rw [hkept name (Bool.eq_true_of_not_eq_false hold)] at hnew
  cases hnew

theorem Corresponds.contains
    (h : Corresponds own σ first second) (name : String) :
    second.grammar.contains (σ name) = first.grammar.contains name := by
  rw [h.grammar, Grammar.contains_rename]

/-- What the first builder knows, the second one knows by the other name. -/
theorem Corresponds.knows
    (h : Corresponds own σ first second) {name : String} (hname : first.Knows own name) :
    second.Knows own (σ name) := by
  rcases hname with hown | hcontains
  · rw [h.fixed name hown]
    exact .inl hown
  · exact .inr ((h.contains name).trans hcontains)

theorem Advances.refl (h : Corresponds own σ first second) :
    Advances own σ σ first second first second :=
  ⟨h, fun _ _ => rfl, fun _ => id, fun _ => id, fun _ => .inl⟩

theorem Advances.knows
    (h : Advances own σ τ first second first' second') {name : String}
    (hname : first.Knows own name) :
    first'.Knows own name :=
  hname.imp_right (h.keeps_first name)

theorem Advances.trans
    (h : Advances own σ τ first second first' second')
    (h' : Advances own τ υ first' second' first'' second'') :
    Advances own σ υ first second first'' second'' where
  corresponds := h'.corresponds
  agrees name hname := (h'.agrees name (h.knows hname)).trans (h.agrees name hname)
  keeps_first name hname := h'.keeps_first name (h.keeps_first name hname)
  keeps_second name hname := h'.keeps_second name (h.keeps_second name hname)
  moves name hmoved := by
    rcases h'.moves name hmoved with hmoved | hadded | hadded
    · refine (h.moves name hmoved).imp_right (Or.imp ?_ ?_)
      · exact fun hadded => addedNames_subset_of_later h'.keeps_first hadded
      · exact fun hadded => addedNames_subset_of_later h'.keeps_second hadded
    · exact .inr (.inl (addedNames_subset_of_earlier h.keeps_first hadded))
    · exact .inr (.inr (addedNames_subset_of_earlier h.keeps_second hadded))

/-! ## Rules that correspond -/

/-- The other rule is the renamed rule, and all its names are known. -/
structure Renamed
    (own : List String) (σ : Equiv.Perm String) (builder : Builder) (rule other : Rule) : Prop where
  eq : other = rule.rename σ
  known : ∀ name ∈ rule.names, builder.Knows own name

/-- Rules that correspond go on to do so, as long as what is known stays known
and keeps its other name. -/
theorem Renamed.of_agrees
    {builder later : Builder} {rule other : Rule} (hrule : Renamed own σ builder rule other)
    (hagrees : ∀ name, builder.Knows own name → τ name = σ name)
    (hknows : ∀ name, builder.Knows own name → later.Knows own name) :
    Renamed own τ later rule other where
  eq := by
    rw [hrule.eq]
    exact Rule.rename_congr fun name hname => (hagrees name (hrule.known name hname)).symm
  known name hname := hknows name (hrule.known name hname)

theorem Renamed.advance
    {rule other : Rule} (hrule : Renamed own σ first rule other)
    (h : Advances own σ τ first second first' second') :
    Renamed own τ first' rule other :=
  hrule.of_agrees h.agrees fun _ => h.knows

/-- A rule with own names only corresponds to itself. -/
theorem Corresponds.renamed_self
    (h : Corresponds own σ first second) (rule : Rule) (hrule : rule.names ⊆ own) :
    Renamed own σ first rule rule where
  eq := (Rule.rename_eq_self fun name hname => h.fixed name (hrule hname)).symm
  known _ hname := .inl (hrule hname)

/-- Bind corresponding bodies to an own name. -/
theorem Renamed.bound
    {body other : Rule} (hbody : Renamed own σ first body other)
    (h : Corresponds own σ first second)
    {name : String} (hname : name ∈ own) :
    Renamed own σ first (.bound name body) (.bound name other) where
  eq := by rw [hbody.eq, Rule.rename, h.fixed name hname]
  known := List.forall_mem_cons.mpr ⟨.inl hname, hbody.known⟩

/-! Combinations of rules that correspond, correspond. -/

theorem map_and_known_of_forall₂_renamed
    {builder : Builder} {rules others : List Rule}
    (h : List.Forall₂ (Renamed own σ builder) rules others) :
    others = rules.map (Rule.rename σ) ∧
      ∀ name ∈ rules.flatMap Rule.names, builder.Knows own name := by
  induction h with
  | nil => exact ⟨rfl, by simp⟩
  | cons hrule _ ih =>
      refine ⟨by rw [hrule.eq, ih.1, List.map_cons], fun name hname => ?_⟩
      rw [List.flatMap_cons, List.mem_append] at hname
      exact hname.elim (hrule.known name) (ih.2 name)

theorem Renamed.concat
    {builder : Builder} {rules others : List Rule}
    (h : List.Forall₂ (Renamed own σ builder) rules others) :
    Renamed own σ builder (.concat rules) (.concat others) := by
  obtain ⟨hmap, hknown⟩ := map_and_known_of_forall₂_renamed h
  refine ⟨by rw [hmap, Rule.rename_concat], fun name hname => hknown name ?_⟩
  rwa [Rule.names_concat] at hname

theorem Renamed.alternative
    {builder : Builder} {rules others : List Rule}
    (h : List.Forall₂ (Renamed own σ builder) rules others) :
    Renamed own σ builder (.alternative rules) (.alternative others) := by
  obtain ⟨hmap, hknown⟩ := map_and_known_of_forall₂_renamed h
  refine ⟨by rw [hmap, Rule.rename_alternative], fun name hname => hknown name ?_⟩
  rwa [Rule.names_alternative] at hname

theorem Renamed.copies
    {builder : Builder} {rule other : Rule} (h : Renamed own σ builder rule other) (count : Nat) :
    Renamed own σ builder (.copies count rule) (.copies count other) :=
  ⟨by rw [h.eq, Rule.rename_copies], fun name hname =>
    h.known name (Rule.names_copies_subset count rule hname)⟩

theorem Renamed.repeatBetween
    {builder : Builder} {rule other : Rule} (h : Renamed own σ builder rule other)
    (low high : Nat) :
    Renamed own σ builder (.repeatBetween low high rule) (.repeatBetween low high other) :=
  ⟨by rw [h.eq, Rule.rename_repeatBetween], fun name hname =>
    h.known name (Rule.names_repeatBetween_subset low high rule hname)⟩

theorem Renamed.withCeiling
    {builder : Builder} {rule other : Rule} (h : Renamed own σ builder rule other)
    (ceiling : Option Nat) :
    Renamed own σ builder (rule.withCeiling ceiling) (other.withCeiling ceiling) := by
  refine ⟨by rw [h.eq, Rule.rename_withCeiling], fun name hname => h.known name ?_⟩
  rwa [Rule.names_withCeiling] at hname

/-- Only what the names of the first builder become counts. -/
theorem Corresponds.of_agrees
    (h : Corresponds own σ first second)
    (hagrees : ∀ name, first.Knows own name → τ name = σ name) :
    Corresponds own τ first second where
  fixed name hname := (hagrees name (.inl hname)).trans (h.fixed name hname)
  grammar := by
    rw [h.grammar]
    apply Grammar.rename_congr
    · intro name hname
      exact (hagrees name (.inr hname)).symm
    · intro name rule hfind other hother
      exact (hagrees other (h.known name rule hfind other hother)).symm
  suggestions := h.suggestions
  known := h.known

/-- Give corresponding rules corresponding names.  The names in the rule may
include the new one. -/
theorem Corresponds.insert
    (h : Corresponds own σ first second) (name : String) {rule : Rule} (supply supply' : NameSupply)
    (hknown : ∀ other ∈ rule.names, other = name ∨ first.Knows own other) :
    Corresponds own σ { first with grammar := first.grammar.insert name rule, supply := supply }
      { second with
        grammar := second.grammar.insert (σ name) (rule.rename σ), supply := supply' } where
  fixed := h.fixed
  grammar := by
    rw [h.grammar]
    exact (Grammar.rename_insert σ first.grammar name rule).symm
  suggestions := h.suggestions
  known := by
    intro key found hfind other hother
    have hcontains := Table.contains_insert_iff first.grammar name rule other
    rw [Table.find?_insert] at hfind
    split at hfind
    · obtain rfl := Option.some.inj hfind
      rcases hknown other hother with hself | hown | hold
      · exact .inr (hcontains.mpr (.inl hself))
      · exact .inl hown
      · exact .inr (hcontains.mpr (.inr hold))
    · rcases h.known key found hfind other hother with hown | hold
      · exact .inl hown
      · exact .inr (hcontains.mpr (.inr hold))

/-! ## New names -/

/-- New names on either side can be made to correspond: what became of the one
is swapped with the other. -/
theorem Corresponds.exists_extension
    (h : Corresponds own σ first second) {new other : String}
    (hnew : ¬first.Knows own new) (hother : ¬second.Knows own other) :
    ∃ τ : Equiv.Perm String, τ new = other ∧
      (∀ name, first.Knows own name → τ name = σ name) ∧
      ∀ name, τ name ≠ name → σ name ≠ name ∨ name = new ∨ name = other := by
  refine ⟨σ.trans (Equiv.swap (σ new) other), ?_, ?_, ?_⟩
  · rw [Equiv.trans_apply, Equiv.swap_apply_left]
  · intro name hname
    have hne : name ≠ new := by
      rintro rfl
      exact hnew hname
    have hne' : σ name ≠ other := by
      rintro rfl
      exact hother (h.knows hname)
    rw [Equiv.trans_apply]
    exact Equiv.swap_apply_of_ne_of_ne (σ.injective.ne hne) hne'
  · intro name hmoved
    rw [Equiv.trans_apply] at hmoved
    by_contra! hstill
    obtain ⟨hfixed, hne, hne'⟩ := hstill
    have himage : name ≠ σ new := by
      rw [← hfixed]
      exact σ.injective.ne hne
    rw [hfixed] at hmoved
    exact hmoved (Equiv.swap_apply_of_ne_of_ne himage hne')

/-- Two runs register corresponding rules under new names of their own. -/
theorem Corresponds.register_new
    (h : Corresponds own σ first second) {new other : String} {body body' : String → Rule}
    {supply supply' : NameSupply} (hnew : ¬first.Knows own new) (hother : ¬second.Knows own other)
    (hbody : ∀ τ : Equiv.Perm String, (∀ name, first.Knows own name → τ name = σ name) →
      body' (τ new) = (body new).rename τ)
    (hknown : ∀ name ∈ (body new).names, name = new ∨ first.Knows own name) :
    ∃ τ, Advances own σ τ first second
        { first with grammar := first.grammar.insert new (body new), supply := supply }
        { second with grammar := second.grammar.insert other (body' other), supply := supply' } ∧
      Renamed own τ { first with grammar := first.grammar.insert new (body new), supply := supply }
        (.bound new (body new)) (.bound other (body' other)) := by
  obtain ⟨τ, rfl, hagrees, hmoved⟩ := h.exists_extension hnew hother
  have hinsert := Table.contains_insert_iff first.grammar new (body new)
  have hinsert' := Table.contains_insert_iff second.grammar (τ new) (body' (τ new))
  refine ⟨τ, ⟨?_, hagrees, fun name hname => (hinsert name).mpr (.inr hname),
    fun name hname => (hinsert' name).mpr (.inr hname), ?_⟩, ?_, ?_⟩
  · rw [hbody τ hagrees]
    exact (h.of_agrees hagrees).insert new supply supply' hknown
  · intro name hmove
    rw [mem_addedNames_iff, mem_addedNames_iff, hinsert, hinsert']
    refine (hmoved name hmove).imp_right (Or.imp ?_ ?_)
    · rintro rfl
      exact ⟨.inl rfl, Bool.eq_false_of_not_eq_true fun hold => hnew (.inr hold)⟩
    · rintro rfl
      exact ⟨.inl rfl, Bool.eq_false_of_not_eq_true fun hold => hother (.inr hold)⟩
  · rw [hbody τ hagrees, Rule.rename]
  · intro name hname
    rcases List.mem_cons.mp hname with hself | hname
    · exact .inr ((hinsert name).mpr (.inl hself))
    · rcases hknown name hname with hself | hown | hold
      · exact .inr ((hinsert name).mpr (.inl hself))
      · exact .inl hown
      · exact .inr ((hinsert name).mpr (.inr hold))

end Builder
end GrammarRepair
