import GrammarRepair.Builder

/-!
# Steps of building

What the steps of a builder do to it.  A builder extends another if it has all
its rules under the same names.  It grows from another if all that happened is
that names were drawn and rules were registered under some of these.  What is
registered under a minted name was not there before, so a builder that grows
extends the earlier one; and every step that only mints and registers lets the
builder grow, whether it succeeds or fails.
-/

namespace GrammarRepair

namespace Build

variable {α β : Type}

@[simp] theorem run_set (builder before : Builder) :
    run (set builder) before = (.ok (), builder) := rfl

theorem run_defineBound (name : String) (body : Rule) (builder : Builder) :
    run (defineBound name body) builder =
      (.ok (.bound name body), { builder with grammar := builder.grammar.insert name body }) := rfl

theorem run_freshName (stem : String) (builder : Builder) :
    run (freshName stem) builder =
      match builder.supply.fresh (Table.contains builder.grammar) stem nameAttempts with
      | (some name, supply) => (.ok name, { builder with supply })
      | (none, supply) =>
          (.error (.namesExhausted stem nameAttempts), { builder with supply }) := by
  simp only [freshName, run_bind, run_get, run_set]
  rcases builder.supply.fresh (Table.contains builder.grammar) stem nameAttempts with
    ⟨found | name, supply⟩
  · rfl
  · rfl

/-- Register a rule under a fresh name, and return it bound to that name. -/
def mint (stem : String) (body : String → Rule) : Build Rule := do
  let name ← freshName stem
  defineBound name (body name)

theorem repeated_none_eq (low : Nat) (rule : Rule) :
    repeated low none rule =
      mint "seq" (anyNumber · rule) >>= fun tail => pure (.concat [.copies low rule, tail]) := by
  rw [mint, bind_assoc]
  rfl

/-- A step in two parts succeeds when both parts do. -/
theorem run_bind_eq_ok_iff
    {step : Build α} {next : α → Build β} {builder after : Builder} {b : β} :
    run (step >>= next) builder = (.ok b, after) ↔
      ∃ a middle, run step builder = (.ok a, middle) ∧ run (next a) middle = (.ok b, after) := by
  rw [run_bind]
  rcases hstep : run step builder with ⟨error | a, middle⟩
  · simp
  · constructor
    · intro hnext
      exact ⟨a, middle, rfl, hnext⟩
    · rintro ⟨a', middle', heq, hnext⟩
      cases heq
      exact hnext

end Build

namespace Builder

/-- The later builder has every rule of the earlier one under the same name, and
the same suggestions. -/
structure Extends (before after : Builder) : Prop where
  suggestions : after.suggestions = before.suggestions
  find? : ∀ {name : String} {rule : Rule},
    before.grammar.find? name = some rule → after.grammar.find? name = some rule

theorem Extends.refl (builder : Builder) : Extends builder builder :=
  ⟨rfl, id⟩

theorem Extends.trans
    {first second third : Builder} (hfirst : Extends first second)
    (hsecond : Extends second third) :
    Extends first third :=
  ⟨hsecond.suggestions.trans hfirst.suggestions, hsecond.find? ∘ hfirst.find?⟩

theorem Extends.contains
    {before after : Builder} (h : Extends before after) {name : String}
    (hname : before.grammar.contains name = true) :
    after.grammar.contains name = true := by
  obtain ⟨rule, hrule⟩ := Option.isSome_iff_exists.mp hname
  exact Option.isSome_iff_exists.mpr ⟨rule, h.find? hrule⟩

theorem Extends.contains_eq_false
    {before after : Builder} (h : Extends before after) {name : String}
    (hname : after.grammar.contains name = false) :
    before.grammar.contains name = false := by
  rw [← Bool.not_eq_true] at hname ⊢
  intro hbefore
  exact hname (h.contains hbefore)

/-- Registering a rule under a name that has none keeps all others. -/
theorem extends_insert
    {builder : Builder} {name : String} (hfresh : builder.grammar.contains name = false)
    (rule : Rule) :
    Extends builder { builder with grammar := builder.grammar.insert name rule } := by
  refine ⟨rfl, fun {other found} hfind => ?_⟩
  have hne : other ≠ name := by
    rintro rfl
    simp [Table.contains, hfind] at hfresh
  simpa [Table.find?_insert_of_ne _ _ hne] using hfind

/-- The later builder has drawn names and has given rules to some of these, each
time to a name that had none. -/
inductive Grows : Builder → Builder → Prop
  | refl (builder : Builder) : Grows builder builder
  | draws {before after : Builder} (supply : NameSupply) (h : Grows before after) :
      Grows before { after with supply }
  | mints {before after : Builder} {stem : String} (draw : UInt64) (rule : Rule)
      (hstem : stem ∈ ["seq", "ldh-str", "lower-ldh-str"])
      (hnew : after.grammar.contains (mintedName stem draw) = false) (h : Grows before after) :
      Grows before { after with grammar := after.grammar.insert (mintedName stem draw) rule }

theorem Grows.trans
    {first second third : Builder} (hfirst : Grows first second) (hsecond : Grows second third) :
    Grows first third := by
  induction hsecond with
  | refl => exact hfirst
  | draws supply _ ih => exact ih.draws supply
  | mints draw rule hstem hnew _ ih => exact ih.mints draw rule hstem hnew

theorem Grows.extends {before after : Builder} (h : Grows before after) : Extends before after := by
  induction h with
  | refl => exact .refl before
  | draws _ _ ih => exact ih.trans ⟨rfl, id⟩
  | mints _ rule _ hnew _ ih => exact ih.trans (extends_insert hnew rule)

end Builder

namespace Build

variable {α β : Type}

/-- The builder grows by both parts of a step, so it grows by the step. -/
theorem grows_bind
    {step : Build α} {next : α → Build β} {builder : Builder}
    (hstep : builder.Grows (run step builder).2)
    (hnext : ∀ a (middle : Builder), middle.Grows (run (next a) middle).2) :
    builder.Grows (run (step >>= next) builder).2 := by
  rw [run_bind]
  rcases h : run step builder with ⟨error | a, middle⟩
  · simpa [h] using hstep
  · rw [h] at hstep
    exact hstep.trans (hnext a middle)

theorem grows_freshName (stem : String) (builder : Builder) :
    builder.Grows (run (freshName stem) builder).2 := by
  rw [run_freshName]
  split
  · exact .draws _ (.refl builder)
  · exact .draws _ (.refl builder)

/-- A minted name is made from a draw and has no rule yet. -/
theorem exists_draw_and_not_contains_of_freshName
    {stem name : String} {builder after : Builder}
    (hfresh : run (freshName stem) builder = (.ok name, after)) :
    (∃ draw, name = mintedName stem draw) ∧ after.grammar.contains name = false := by
  rw [run_freshName] at hfresh
  split at hfresh
  · rename_i found supply hfound
    cases hfresh
    exact NameSupply.exists_draw_and_not_taken_of_fresh hfound
  · cases hfresh

theorem grows_mint
    {stem : String} (hstem : stem ∈ ["seq", "ldh-str", "lower-ldh-str"]) (body : String → Rule)
    (builder : Builder) :
    builder.Grows (run (mint stem body) builder).2 := by
  rw [mint, run_bind]
  rcases hfresh : run (freshName stem) builder with ⟨error | name, drawn⟩
  · simpa [hfresh] using grows_freshName stem builder
  · have hdrawn := grows_freshName stem builder
    rw [hfresh] at hdrawn
    obtain ⟨⟨draw, rfl⟩, hnew⟩ := exists_draw_and_not_contains_of_freshName hfresh
    exact hdrawn.mints draw (body (mintedName stem draw)) hstem hnew

/-- A repetition registers at most one rule, under a minted name. -/
theorem grows_repeated (low : Nat) (high : Option Nat) (rule : Rule) (builder : Builder) :
    builder.Grows (run (repeated low high rule) builder).2 := by
  cases high with
  | some high => exact .refl builder
  | none =>
      rw [repeated_none_eq]
      exact grows_bind (grows_mint (by decide) _ builder) fun _ => .refl

theorem extends_repeated (low : Nat) (high : Option Nat) (rule : Rule) (builder : Builder) :
    builder.Extends (run (repeated low high rule) builder).2 :=
  (grows_repeated low high rule builder).extends

/-- An unbounded repetition binds a name that had no rule, and registers it. -/
theorem run_repeated_none_eq_ok
    {low : Nat} {rule result : Rule} {builder after : Builder}
    (hrun : run (repeated low none rule) builder = (.ok result, after)) :
    ∃ name, result = .concat [.copies low rule, .bound name (anyNumber name rule)] ∧
      builder.grammar.contains name = false ∧ after.grammar.contains name = true := by
  obtain ⟨name, drawn, hdrawn, htail⟩ := run_bind_eq_ok_iff.mp hrun
  obtain ⟨tail, last, hbound, heq⟩ := run_bind_eq_ok_iff.mp htail
  rw [run_defineBound] at hbound
  cases hbound
  cases heq
  have hextends := (grows_freshName "seq" builder).extends
  rw [hdrawn] at hextends
  have hnew := hextends.contains_eq_false (exists_draw_and_not_contains_of_freshName hdrawn).2
  exact ⟨name, rfl, hnew, by simp [Table.contains]⟩

end Build
end GrammarRepair
