import GrammarRepair.Proofs.Building
import GrammarRepair.Proofs.CharacterClass
import GrammarRepair.Proofs.Congruence
import GrammarRepair.Proofs.Descent

/-!
# Unbounded repetition

A repetition without an upper bound is a rule that refers to itself.  The body
offers the item once, or the item and then the whole again; and the guard cuts
the recursion where an item has consumed nothing.

So it is not plain that the matches are those of some number of copies.  The
item is matched under the binding of the repetition and below its frames, which
do not matter as long as nothing in the item comes to that name.  The first round
has no frame, since a binding is not one.  And of a row of copies the guard lets
through those that consume something, one after the other on shorter and shorter
inputs; what it cuts are copies that leave their input as it was, and these add
nothing if their text is empty.

That the inputs get shorter takes items that leave ends of their inputs.  A
function given as a suggestion need not: one that turns a letter into another and
that one back comes to the first input again, there the guard cuts, and a row of
more copies is lost.
-/

namespace GrammarRepair

/-! ## What a name means to a rule that does not reach it -/

/-- Matching the rule may come to a reference to the name, where names have this
meaning. -/
inductive Rule.Reaches (name : String) : (String → Option Rule) → Rule → Prop
  | reference {meaning : String → Option Rule} : Reaches name meaning (.reference name)
  | target {meaning : String → Option Rule} {other : String} {target : Rule}
      (hother : meaning other = some target) (h : Reaches name meaning target) :
      Reaches name meaning (.reference other)
  | sequence {meaning : String → Option Rule} {parts : List Rule} {part : Rule}
      (hpart : part ∈ parts) (h : Reaches name meaning part) :
      Reaches name meaning (.sequence parts)
  | choice {meaning : String → Option Rule} {branches : List Rule} {branch : Rule}
      {suggestion : Option Suggestion} (hbranch : branch ∈ branches)
      (h : Reaches name meaning branch) :
      Reaches name meaning (.choice branches suggestion)
  | bound {meaning : String → Option Rule} {other : String} {body : Rule}
      (h : Reaches name (fun key => if key = other then some body else meaning key) body) :
      Reaches name meaning (.bound other body)
  | capped {meaning : String → Option Rule} {limit : Nat} {inner : Rule}
      (h : Reaches name meaning inner) :
      Reaches name meaning (.capped limit inner)

theorem Rule.Reaches.mentions_ne_nil
    {name : String} {meaning : String → Option Rule} {rule : Rule} (h : Reaches name meaning rule) :
    rule.mentions ≠ [] := by
  induction h with
  | reference | target => exact List.cons_ne_nil _ _
  | sequence hpart _ ih | choice hpart _ ih =>
      obtain ⟨other, hother⟩ := List.exists_mem_of_ne_nil _ ih
      exact List.ne_nil_of_mem (Matching.mentions_subset_mentionsOfAll hpart hother)
  | bound _ ih | capped _ ih => exact ih

/-- The contexts agree on all names but this one. -/
structure Context.SameApart (name : String) (ctx ctx' : Context) : Prop where
  resolve? : ∀ {other}, other ≠ name → ctx'.resolve? other = ctx.resolve? other
  contains : ∀ {other} (input : Text), other ≠ name →
    ctx'.contains other input = ctx.contains other input

namespace Context.SameApart

variable {name : String} {ctx ctx' : Context}

theorem refl (name : String) (ctx : Context) : SameApart name ctx ctx :=
  ⟨fun _ => rfl, fun _ _ => rfl⟩

theorem bind (h : SameApart name ctx ctx') (other : String) (body : Rule) :
    SameApart name (ctx.bind other body) (ctx'.bind other body) := by
  refine ⟨fun {key} hkey => ?_, h.contains⟩
  rw [resolve?_bind, resolve?_bind, h.resolve? hkey]

/-- A binding of the name itself, and a frame for it, make no difference. -/
theorem bind_self (h : SameApart name ctx ctx') (body : Rule) :
    SameApart name ctx (ctx'.bind name body) := by
  refine ⟨fun {key} hkey => ?_, h.contains⟩
  rw [resolve?_bind, if_neg hkey, h.resolve? hkey]

theorem enter_self (h : SameApart name ctx ctx') (input : Text) :
    SameApart name ctx { ctx' with frames := ⟨name, input⟩ :: ctx'.frames } := by
  refine ⟨h.resolve?, fun {key} rest hkey => ?_⟩
  rw [← h.contains rest hkey]
  simp [Context.contains, hkey]

theorem enter
    {child child' : Context} {other : String} {input : Text} (h : SameApart name ctx ctx')
    (henter : ctx.enter? other input = some child)
    (henter' : ctx'.enter? other input = some child') :
    SameApart name child child' := by
  obtain ⟨-, rfl⟩ := enter?_eq_some_iff.mp henter
  obtain ⟨-, rfl⟩ := enter?_eq_some_iff.mp henter'
  refine ⟨h.resolve?, fun {key} rest hkey => ?_⟩
  have hframes := h.contains rest hkey
  simp only [Context.contains, decide_eq_decide] at hframes ⊢
  rw [List.mem_cons, List.mem_cons, hframes]

end Context.SameApart

theorem preserved_sameApart (name : String) :
    Preserved fun rule _ ctx ctx' =>
      ¬Rule.Reaches name ctx.resolve? rule ∧ ctx.SameApart name ctx' where
  later h _ _ := h
  sequence h part hpart := ⟨fun hreaches => h.1 (.sequence hpart hreaches), h.2⟩
  choice h branch hbranch := ⟨fun hreaches => h.1 (.choice hbranch hreaches), h.2⟩
  bound {other body} _ ctx _ h := by
    refine ⟨fun hreaches => h.1 (.bound ?_), h.2.bind other body⟩
    rwa [Context.resolve?_bind_eq] at hreaches
  capped h := ⟨fun hreaches => h.1 (.capped hreaches), h.2⟩
  resolve? h := h.2.resolve? fun heq => h.1 (heq ▸ .reference)
  contains h := h.2.contains _ fun heq => h.1 (heq ▸ .reference)
  target h hresolve henter henter' := by
    refine ⟨fun hreaches => h.1 (.target hresolve ?_), h.2.enter henter henter'⟩
    obtain ⟨-, rfl⟩ := Context.enter?_eq_some_iff.mp henter
    exact hreaches

/-- A rule that does not reach a name has the same matches whatever the name
stands for, and wherever it has been entered. -/
theorem enumerate_eq_of_sameApart
    {name : String} {rule : Rule} {ctx ctx' : Context}
    (hrule : ¬Rule.Reaches name ctx.resolve? rule) (hctx : ctx.SameApart name ctx') (input : Text) :
    rule.enumerate ctx' input = rule.enumerate ctx input :=
  (preserved_sameApart name).enumerate_eq ⟨hrule, hctx⟩

/-! ## Copies -/

namespace Rule

variable {ctx : Context} {input : Text} {m : Match} {item : Rule}

theorem mem_enumerate_copies_zero_iff :
    m ∈ (copies 0 item).enumerate ctx input ↔ m = ⟨[], input⟩ := by
  rw [copies, enumerate_concat, List.replicate_zero, enumerateSequence_nil, List.mem_singleton]

theorem mem_enumerate_copies_succ_iff {count : Nat} :
    m ∈ (copies (count + 1) item).enumerate ctx input ↔
      ∃ head ∈ item.enumerate ctx input, ∃ tail ∈ (copies count item).enumerate ctx head.rest,
        m = ⟨head.text ++ tail.text, tail.rest⟩ := by
  simp only [copies, enumerate_concat, List.replicate_succ, mem_enumerateSequence_cons_iff]

theorem mem_enumerate_copies_one_iff :
    m ∈ (copies 1 item).enumerate ctx input ↔ m ∈ item.enumerate ctx input :=
  Iff.rfl

/-- Copies after copies are copies. -/
theorem mem_enumerate_copies_add_iff {low more : Nat} :
    m ∈ (copies (low + more) item).enumerate ctx input ↔
      ∃ head ∈ (copies low item).enumerate ctx input,
        ∃ tail ∈ (copies more item).enumerate ctx head.rest,
          m = ⟨head.text ++ tail.text, tail.rest⟩ := by
  simp only [copies, enumerate_concat, List.replicate_add, mem_enumerateSequence_append_iff]

/-- The body offers the item once, or the item and the name again; and nothing
at all, if the least number is zero. -/
structure Unrolls (least : Nat) (name : String) (item body : Rule) : Prop where
  least_le : least ≤ 1
  mem_iff : ∀ {ctx : Context} {input : Text} {m : Match},
    m ∈ body.enumerate ctx input ↔
      least = 0 ∧ m = ⟨[], input⟩ ∨ m ∈ item.enumerate ctx input ∨
        ∃ head ∈ item.enumerate ctx input,
          ∃ tail ∈ (reference name).enumerate ctx head.rest,
            m = ⟨head.text ++ tail.text, tail.rest⟩

theorem unrolls_anyNumber (name : String) (item : Rule) :
    Unrolls 0 name item (Build.anyNumber name item) where
  least_le := Nat.zero_le 1
  mem_iff := by
    intro ctx input m
    rw [Build.anyNumber, enumerate_alternative]
    simp [enumerate_epsilon, enumerate_concat, mem_enumerateSequence_cons_iff,
      enumerateSequence_singleton]

theorem unrolls_runBody (name : String) (item : Rule) :
    Unrolls 1 name item (CharacterClass.runBody name item) where
  least_le := Nat.le_refl 1
  mem_iff := by
    intro ctx input m
    rw [CharacterClass.mem_runBody_iff]
    simp

/-- From every end of the input, a copy leaves an end of that. -/
def EndsIn (item : Rule) (ctx : Context) (input : Text) : Prop :=
  ∀ rest, rest <:+ input → ∀ m ∈ item.enumerate ctx rest, m.rest <:+ rest

/-- On every end of the input, a copy that leaves its input as it was has an empty
text. -/
def StaysEmpty (item : Rule) (ctx : Context) (input : Text) : Prop :=
  ∀ rest, rest <:+ input → ∀ m ∈ item.enumerate ctx rest, m.rest = rest → m.text = []

/-- Copies leave ends of the input if all suggestions do. -/
theorem endsIn_of_leavesEnds
    (hends : ∀ other ∈ item :: ctx.rules, other.LeavesEnds) (input : Text) :
    item.EndsIn ctx input :=
  fun _ _ _ hm => rest_suffix_of_mem_enumerate hends hm

theorem EndsIn.of_suffix {rest : Text} (h : item.EndsIn ctx input) (hrest : rest <:+ input) :
    item.EndsIn ctx rest :=
  fun later hlater => h later (hlater.trans hrest)

theorem StaysEmpty.of_suffix
    {rest : Text} (h : item.StaysEmpty ctx input) (hrest : rest <:+ input) :
    item.StaysEmpty ctx rest :=
  fun later hlater => h later (hlater.trans hrest)

theorem EndsIn.rest_suffix_of_mem_copies
    {count : Nat} (h : item.EndsIn ctx input) (hm : m ∈ (copies count item).enumerate ctx input) :
    m.rest <:+ input := by
  induction count generalizing input m with
  | zero =>
      obtain rfl := mem_enumerate_copies_zero_iff.mp hm
      exact List.suffix_rfl
  | succ count ih =>
      obtain ⟨head, hhead, tail, htail, rfl⟩ := mem_enumerate_copies_succ_iff.mp hm
      have hfirst := h input List.suffix_rfl head hhead
      exact (ih (h.of_suffix hfirst) htail).trans hfirst

namespace Unrolls

variable {least : Nat} {name : String} {body : Rule} {ctx' : Context}

/-- What the body matches is some number of copies.  From one entry of the name
to the next there is less work left to do. -/
theorem exists_mem_copies
    (hbody : Unrolls least name item body) (hitem : ¬Reaches name ctx.resolve? item)
    (hctx : ctx.SameApart name ctx') (hname : ctx'.resolve? name = some body)
    (hm : m ∈ body.enumerate ctx' input) :
    ∃ count ≥ least, m ∈ (copies count item).enumerate ctx input := by
  induction heffort : ctx'.effort [name] 0 input.byteLength
    using Nat.strongRecOn generalizing ctx' input m with
  | ind effort ih =>
      have hsame (rest : Text) := enumerate_eq_of_sameApart hitem hctx rest
      rcases hbody.mem_iff.mp hm with ⟨hleast, rfl⟩ | hone | ⟨head, hhead, tail, htail, rfl⟩
      · exact ⟨0, Nat.le_of_eq hleast, mem_enumerate_copies_zero_iff.mpr rfl⟩
      · rw [hsame] at hone
        exact ⟨1, hbody.least_le, mem_enumerate_copies_one_iff.mpr hone⟩
      · have hbytes := byteLength_rest_le_of_mem_enumerate hhead
        rw [hsame] at hhead
        rw [enumerate_reference, hname] at htail
        cases henter : ctx'.enter? name head.rest with
        | none => simp [henter] at htail
        | some child =>
            rw [henter] at htail
            have hless : child.effort [name] 0 head.rest.byteLength < effort := by
              rw [← heffort]
              exact Nat.lt_of_lt_of_le
                (Context.effort_enter_lt henter (List.mem_singleton_self name)
                  (List.Subset.refl _) (Nat.zero_le _))
                (Context.effort_le_of_bytes_le hbytes)
            obtain ⟨-, rfl⟩ := Context.enter?_eq_some_iff.mp henter
            obtain ⟨count, hcount, htail⟩ := ih _ hless (hctx.enter_self head.rest) hname htail rfl
            exact ⟨count + 1, Nat.le_succ_of_le hcount,
              mem_enumerate_copies_succ_iff.mpr ⟨head, hhead, tail, htail, rfl⟩⟩

/-- The body matches any number of copies.  Where a copy has consumed something,
the name has not been entered on what is left; where it has not, the copy is left
out. -/
theorem mem_enumerate_of_copies
    (hbody : Unrolls least name item body) (hitem : ¬Reaches name ctx.resolve? item)
    (hctx : ctx.SameApart name ctx') (hname : ctx'.resolve? name = some body)
    (hframes : ∀ frame ∈ ctx'.frames, frame.name = name → input.length ≤ frame.input.length)
    (hends : item.EndsIn ctx input) (hstays : item.StaysEmpty ctx input)
    {count : Nat} (hcount : least ≤ count)
    (hm : m ∈ (copies count item).enumerate ctx input) :
    m ∈ body.enumerate ctx' input := by
  induction count generalizing ctx' input m with
  | zero =>
      have hnone := mem_enumerate_copies_zero_iff.mp hm
      exact hbody.mem_iff.mpr (.inl ⟨Nat.le_zero.mp hcount, hnone⟩)
  | succ count ih =>
      obtain ⟨head, hhead, tail, htail, rfl⟩ := mem_enumerate_copies_succ_iff.mp hm
      have hsame := enumerate_eq_of_sameApart hitem hctx input
      by_cases hstay : head.rest = input
      · have hempty := hstays input List.suffix_rfl head hhead hstay
        rw [hstay] at htail
        rw [hempty, List.nil_append]
        by_cases hmore : least ≤ count
        · exact ih hctx hname hframes hends hstays hmore htail
        · -- The only copy, which cannot be left out, is the item itself.
          have hlast : count = 0 := by
            have := hbody.least_le
            omega
          rw [hlast, mem_enumerate_copies_zero_iff] at htail
          obtain rfl : head = tail := by
            rw [htail, ← hempty, ← hstay]
          exact hbody.mem_iff.mpr (.inr (.inl (hsame ▸ hhead)))
      · have hsuffix := hends input List.suffix_rfl head hhead
        have hshorter : head.rest.length < input.length := by
          refine Nat.lt_of_le_of_ne hsuffix.length_le fun heq => hstay (hsuffix.eq_of_length heq)
        cases count with
        | zero =>
            rw [mem_enumerate_copies_zero_iff.mp htail, List.append_nil]
            exact hbody.mem_iff.mpr (.inr (.inl (hsame ▸ hhead)))
        | succ count =>
            have hnew : Frame.mk name head.rest ∉ ctx'.frames := by
              intro hframe
              exact absurd (hframes _ hframe rfl) (Nat.not_le_of_lt hshorter)
            have hlater := ih (hctx.enter_self head.rest) hname
              (List.forall_mem_cons.mpr ⟨fun _ => Nat.le_refl _, fun frame hframe heq =>
                Nat.le_of_lt (Nat.lt_of_lt_of_le hshorter (hframes frame hframe heq))⟩)
              (hends.of_suffix hsuffix) (hstays.of_suffix hsuffix)
              (Nat.le_trans hbody.least_le (Nat.le_add_left 1 count)) htail
            rw [← enumerate_reference_of_not_mem hname hnew] at hlater
            exact hbody.mem_iff.mpr (.inr (.inr ⟨head, hsame ▸ hhead, tail, hlater, rfl⟩))

end Unrolls

/-- The repetition matches nothing but copies of the item, `low` or more.  And it
matches all such copies, if they leave ends of the input and those that leave it
as it was have empty texts. -/
structure RepeatsAtLeast
    (low : Nat) (item repetition : Rule) (ctx : Context) (input : Text) : Prop where
  sound : ∀ m ∈ repetition.enumerate ctx input,
    ∃ count ≥ low, m ∈ (copies count item).enumerate ctx input
  complete : item.EndsIn ctx input → item.StaysEmpty ctx input → ∀ count ≥ low,
    ∀ m ∈ (copies count item).enumerate ctx input, m ∈ repetition.enumerate ctx input

theorem Unrolls.repeatsAtLeast
    {least : Nat} {name : String} {body : Rule} (hbody : Unrolls least name item body)
    (hitem : ¬item.Reaches name ctx.resolve?) (hframes : ∀ frame ∈ ctx.frames, frame.name ≠ name)
    (input : Text) :
    RepeatsAtLeast least item (.bound name body) ctx input := by
  have hctx := (Context.SameApart.refl name ctx).bind_self body
  have hname : (ctx.bind name body).resolve? name = some body := by
    rw [Context.resolve?_bind, if_pos rfl]
  refine ⟨fun m hm => ?_, fun hends hstays count hcount m hm => ?_⟩
  · rw [enumerate_bound] at hm
    exact hbody.exists_mem_copies hitem hctx hname hm
  · rw [enumerate_bound]
    exact hbody.mem_enumerate_of_copies hitem hctx hname
      (fun frame hframe heq => absurd heq (hframes frame hframe)) hends hstays hcount hm

/-- Copies in front of a repetition add to the least number. -/
theorem RepeatsAtLeast.after_copies
    {tail : Rule} (htail : ∀ rest, RepeatsAtLeast 0 item tail ctx rest) (low : Nat) (input : Text) :
    RepeatsAtLeast low item (.concat [copies low item, tail]) ctx input := by
  refine ⟨fun m hm => ?_, fun hends hstays count hcount m hm => ?_⟩
  · obtain ⟨first, hfirst, last, hlast, rfl⟩ := mem_enumerate_andThen_iff.mp hm
    obtain ⟨more, -, hmore⟩ := (htail first.rest).sound last hlast
    exact ⟨low + more, Nat.le_add_right low more,
      mem_enumerate_copies_add_iff.mpr ⟨first, hfirst, last, hmore, rfl⟩⟩
  · obtain ⟨more, rfl⟩ := Nat.exists_eq_add_of_le hcount
    obtain ⟨first, hfirst, last, hlast, rfl⟩ := mem_enumerate_copies_add_iff.mp hm
    have hsuffix := hends.rest_suffix_of_mem_copies hfirst
    have htail := (htail first.rest).complete (hends.of_suffix hsuffix) (hstays.of_suffix hsuffix)
      more (Nat.zero_le more) last hlast
    exact mem_enumerate_andThen_iff.mpr ⟨first, hfirst, last, htail, rfl⟩

end Rule

/-! ## Repetitions that a builder makes -/

open Build CharacterClass

/-- Under the name that is minted for it, a repetition comes out as the body
bound to that name. -/
theorem run_repeated_none_of_freshName
    {name : String} {builder drawn : Builder}
    (hname : run (freshName "seq") builder = (.ok name, drawn)) (low : Nat) (item : Rule) :
    ∃ after, run (repeated low none item) builder =
      (.ok (.concat [.copies low item, .bound name (anyNumber name item)]), after) := by
  obtain ⟨after, hafter⟩ : ∃ after, run (defineBound name (anyNumber name item)) drawn =
      (.ok (.bound name (anyNumber name item)), after) :=
    ⟨_, run_defineBound _ _ _⟩
  exact ⟨after, run_bind_eq_ok_iff.mpr
    ⟨name, drawn, hname, run_bind_eq_ok_iff.mpr ⟨_, after, hafter, rfl⟩⟩⟩

theorem run_runOf_of_freshName
    {stem name : String} {builder drawn : Builder}
    (hname : run (freshName stem) builder = (.ok name, drawn)) (item : Rule) :
    ∃ after, run (runOf stem item) builder = (.ok (.bound name (runBody name item)), after) :=
  ⟨_, run_bind_eq_ok_iff.mpr ⟨name, drawn, hname, run_defineBound _ _ _⟩⟩

/-- A repetition without an upper bound matches nothing but what `low` copies of
its item or more match, and likewise the runs of identifier characters with one
or more: in every context that has not entered the minted name, where the item
does not reach that name.  They match all of that if copies leave ends of their
inputs, and have empty texts where they leave the input as it was. -/
theorem repeatsAtLeast_of_run (builder : Builder) :
    (∀ (low : Nat) (item : Rule) (name : String) (drawn : Builder),
      run (freshName "seq") builder = (.ok name, drawn) →
        ∃ result after, run (repeated low none item) builder = (.ok result, after) ∧
          ∀ ctx : Context, (∀ frame ∈ ctx.frames, frame.name ≠ name) →
            ¬item.Reaches name ctx.resolve? →
              ∀ input, Rule.RepeatsAtLeast low item result ctx input) ∧
      (∀ (suggestion : Option Suggestion) (name : String) (drawn : Builder),
        run (freshName "ldh-str") builder = (.ok name, drawn) →
          ∃ result after, run (letterDigitHyphenRun suggestion) builder = (.ok result, after) ∧
            ∀ ctx : Context, (∀ frame ∈ ctx.frames, frame.name ≠ name) →
              ∀ input, Rule.RepeatsAtLeast 1 (letterDigitOrHyphen suggestion) result ctx input) ∧
      ∀ (suggestion : Option Suggestion) (name : String) (drawn : Builder),
        run (freshName "lower-ldh-str") builder = (.ok name, drawn) →
          ∃ result after, run (lowerLetterDigitHyphenRun suggestion) builder = (.ok result, after) ∧
            ∀ ctx : Context, (∀ frame ∈ ctx.frames, frame.name ≠ name) →
              ∀ input,
                Rule.RepeatsAtLeast 1 (lowerLetterDigitOrHyphen suggestion) result ctx input := by
  refine ⟨fun low item name drawn hname => ?_, fun suggestion name drawn hname => ?_,
    fun suggestion name drawn hname => ?_⟩
  · obtain ⟨after, hafter⟩ := run_repeated_none_of_freshName hname low item
    refine ⟨_, after, hafter, fun ctx hframes hitem => ?_⟩
    exact Rule.RepeatsAtLeast.after_copies
      ((Rule.unrolls_anyNumber name item).repeatsAtLeast hitem hframes) low
  · obtain ⟨after, hafter⟩ := run_runOf_of_freshName hname (letterDigitOrHyphen suggestion)
    refine ⟨_, after, hafter, fun ctx hframes => ?_⟩
    exact (Rule.unrolls_runBody name _).repeatsAtLeast
      (fun hreaches => hreaches.mentions_ne_nil rfl) hframes
  · obtain ⟨after, hafter⟩ := run_runOf_of_freshName hname (lowerLetterDigitOrHyphen suggestion)
    refine ⟨_, after, hafter, fun ctx hframes => ?_⟩
    exact (Rule.unrolls_runBody name _).repeatsAtLeast
      (fun hreaches => hreaches.mentions_ne_nil rfl) hframes

theorem exists_run_freshName_counting :
    ∃ drawn, run (freshName "seq") { supply := .counting } =
      (.ok "seq-0000000000000000", drawn) :=
  ⟨_, rfl⟩

/-- Swaps the only letter of an input for another that is still to be read. -/
def swapLetter : Text → List Match
  | ['a'] => [⟨['x'], ['b']⟩]
  | ['b'] => [⟨['y'], ['a']⟩]
  | _ => []

theorem byteLength_rest_le_of_mem_swapLetter (input : Text) :
    ∀ m ∈ swapLetter input, m.rest.byteLength ≤ input.byteLength := by
  intro m hm
  unfold swapLetter at hm
  split at hm
  · obtain rfl := List.mem_singleton.mp hm
    decide
  · obtain rfl := List.mem_singleton.mp hm
    decide
  · cases hm

/-- A digit, which a letter is swapped in place of. -/
def swappedLetter : Rule :=
  .range (.ofBounds '0' '0') (some (.custom swapLetter byteLength_rest_le_of_mem_swapLetter))

/-- Where copies leave something else than an end of the input, some are lost,
though none leaves its input as it was: the fourth copy would have to be matched
on a letter that the name has been entered on. -/
theorem copies_not_mem_repeated_swappedLetter :
    let ctx := Context.fresh Grammar.empty
    ∃ name drawn result after,
      run (freshName "seq") { supply := .counting } = (.ok name, drawn) ∧
        run (repeated 0 none swappedLetter) { supply := .counting } = (.ok result, after) ∧
        (∀ frame ∈ ctx.frames, frame.name ≠ name) ∧ ¬swappedLetter.Reaches name ctx.resolve? ∧
        swappedLetter.StaysEmpty ctx ['a'] ∧
        ⟨"xyxy".toList, ['a']⟩ ∈ (Rule.copies 4 swappedLetter).enumerate ctx ['a'] ∧
        ⟨"xyxy".toList, ['a']⟩ ∉ result.enumerate ctx ['a'] := by
  intro ctx
  obtain ⟨drawn, hdrawn⟩ := exists_run_freshName_counting
  obtain ⟨after, hafter⟩ := run_repeated_none_of_freshName hdrawn 0 swappedLetter
  have hstays : swappedLetter.StaysEmpty ctx ['a'] := by
    intro rest hrest
    rcases List.suffix_cons_iff.mp hrest with rfl | hrest
    · decide +kernel
    · obtain rfl := List.suffix_nil.mp hrest
      decide +kernel
  refine ⟨_, drawn, _, after, hdrawn, hafter, ?_, ?_, hstays, ?_, ?_⟩
  · exact List.forall_mem_nil _
  · exact fun hreaches => hreaches.mentions_ne_nil rfl
  · decide +kernel
  · decide +kernel

/-- A letter, or nothing. -/
def letterOrNothing : Rule :=
  .optional (.reference "letter")

/-- A grammar with letters, inside a rule for words. -/
def insideWords : Context where
  grammar := Grammar.empty.insert "letter" (.range (.ofBounds 'a' 'z') none)
  frames := [⟨"words", "ab!".toList⟩]

theorem not_reaches_letterOrNothing {name : String} (hname : name ≠ "letter") :
    ¬letterOrNothing.Reaches name insideWords.resolve? := by
  intro hreaches
  cases hreaches with
  | choice hbranch hreaches =>
      rcases List.mem_pair.mp hbranch with rfl | rfl
      · exact hreaches.mentions_ne_nil rfl
      · cases hreaches with
        | reference => exact hname rfl
        | target htarget hreaches =>
            obtain rfl := Option.some.inj htarget
            cases hreaches

theorem staysEmpty_letterOrNothing (input : Text) :
    letterOrNothing.StaysEmpty insideWords input := by
  intro rest _ m hm hrest
  have hresolve : insideWords.resolve? "letter" = some (.range (.ofBounds 'a' 'z') none) := rfl
  have hnew : Frame.mk "letter" rest ∉ insideWords.frames := by
    simp [insideWords]
  rw [letterOrNothing, Rule.enumerate_optional,
    Rule.enumerate_reference_of_not_mem hresolve hnew] at hm
  rcases List.mem_cons.mp hm with rfl | hm
  · rfl
  · rw [matchesOne_range] at hm
    cases rest with
    | nil => cases hm
    | cons c later =>
        rw [(mem_oneOf_cons_iff.mp hm).2] at hrest
        simp at hrest

/-- Two letters or more, any of which may be missing.  Where there are only two,
a third copy adds nothing, and the guard cuts it. -/
theorem repeatsAtLeast_letterOrNothing :
    ∃ result after,
      run (repeated 2 none letterOrNothing) { supply := .counting } = (.ok result, after) ∧
        Rule.RepeatsAtLeast 2 letterOrNothing result insideWords "ab!".toList ∧
          ⟨"ab".toList, ['!']⟩ ∈ result.enumerate insideWords "ab!".toList := by
  obtain ⟨drawn, hdrawn⟩ := exists_run_freshName_counting
  obtain ⟨hrepeated, -, -⟩ := repeatsAtLeast_of_run { supply := .counting }
  obtain ⟨result, after, hafter, hresult⟩ := hrepeated 2 letterOrNothing _ drawn hdrawn
  have hreaches : ¬letterOrNothing.Reaches "seq-0000000000000000" insideWords.resolve? :=
    not_reaches_letterOrNothing (by decide)
  have hcopies := hresult insideWords (by decide) hreaches "ab!".toList
  refine ⟨result, after, hafter, hcopies, ?_⟩
  have hends : letterOrNothing.EndsIn insideWords "ab!".toList :=
    Rule.endsIn_of_leavesEnds (Rule.forall_leavesEnds_of_readyMade (by decide +kernel)) _
  exact hcopies.complete hends (staysEmpty_letterOrNothing _) 3 (by decide) _ (by decide +kernel)

end GrammarRepair
