import GrammarRepair.Context

/-!
# Why matching ends

Matching a reference jumps to another rule on the same input, so neither rules
nor inputs shrink; and a suggestion may leave another input of the same size.
What shrinks is the number of ways in which a name may still be entered.  There
are only so many inputs of a given size, and a name is not entered twice on the
same one.  So `openPairs` counts, among the pairs of a name that the rule at hand
or the context mentions and an input of that size, those without a frame.
Entering a name uses such a pair up, and the parts of a rule mention no more than
the rule.

So matching descends in three counts, the first of them weighing most: the bytes
left, the pairs still open, the nodes of the rule.  Both the number of pairs and
the size of rules stay bounded during a descent, so the three counts combine into
one number, the `effort`.  One number, and not a triple, lets closed examples be
evaluated.
-/

namespace GrammarRepair

/-- A list freed of duplicates has none. -/
theorem nodup_eraseDups {α : Type} [BEq α] [LawfulBEq α] (elements : List α) :
    elements.eraseDups.Nodup := by
  match elements with
  | [] => simp
  | first :: elements =>
      rw [List.eraseDups_cons, List.nodup_cons]
      refine ⟨fun hmem => ?_, nodup_eraseDups _⟩
      simp at hmem
termination_by elements.length
decreasing_by exact Nat.lt_succ_of_le (List.length_filter_le _ _)

/-- A frame with its input as a number. -/
def Frame.pair (frame : Frame) : String × Nat :=
  (frame.name, frame.input.code)

theorem Frame.pair_injective {frame other : Frame} (hpair : frame.pair = other.pair) :
    frame = other := by
  obtain ⟨name, input⟩ := frame
  obtain ⟨_, later⟩ := other
  obtain ⟨rfl, hcode⟩ := Prod.mk.inj hpair
  obtain rfl : input = later := Text.code_injective hcode
  rfl

namespace Context

/-- How many different names are listed or mentioned by the context. -/
def knownNames (ctx : Context) (names : List String) : Nat :=
  (names ++ ctx.mentions).eraseDups.length

/-- How many pairs of such a name and an input of this size there are at most. -/
def knownPairs (ctx : Context) (names : List String) (bytes : Nat) : Nat :=
  ctx.knownNames names * Text.codeBound bytes

/-- The pairs among these that have been entered. -/
def enteredPairs (ctx : Context) (names : List String) (bytes : Nat) : List (String × Nat) :=
  ((ctx.frames.map Frame.pair).filter fun pair =>
    pair.1 ∈ names ++ ctx.mentions ∧ pair.2 < Text.codeBound bytes).eraseDups

/-- How many of these pairs have not been entered. -/
def openPairs (ctx : Context) (names : List String) (bytes : Nat) : Nat :=
  ctx.knownPairs names bytes - (ctx.enteredPairs names bytes).length

/-- The size of the largest rule that a name can stand for. -/
def largest (ctx : Context) : Nat :=
  ctx.rules.foldr (fun rule most => max rule.size most) 0

/-- A bound on the work of matching a rule, or a list of rules, that mentions
these names and has this size, on an input of so many bytes. -/
def effort (ctx : Context) (names : List String) (size bytes : Nat) : Nat :=
  (bytes * (ctx.knownPairs names bytes + 1) + ctx.openPairs names bytes) *
    (max size ctx.largest + 1) + size

theorem size_le_largest {ctx : Context} {rule : Rule} (hrule : rule ∈ ctx.rules) :
    rule.size ≤ ctx.largest := by
  unfold largest
  generalize ctx.rules = rules at hrule
  induction rules with
  | nil => simp at hrule
  | cons first rules ih =>
      rw [List.foldr_cons]
      rcases List.mem_cons.mp hrule with rfl | hrule
      · exact Nat.le_max_left _ _
      · exact Nat.le_trans (ih hrule) (Nat.le_max_right _ _)

theorem largest_bind (ctx : Context) (name : String) (rule : Rule) :
    (ctx.bind name rule).largest = max rule.size ctx.largest := rfl

theorem mentions_bind (ctx : Context) (name : String) (rule : Rule) :
    (ctx.bind name rule).mentions = rule.mentions ++ ctx.mentions := rfl

/-! ## Open pairs -/

/-- All pairs of a name and a number below the bound for this size. -/
def allPairs (ctx : Context) (names : List String) (bytes : Nat) : List (String × Nat) :=
  (names ++ ctx.mentions).eraseDups.flatMap fun name =>
    (List.range (Text.codeBound bytes)).map (name, ·)

theorem mem_allPairs_iff {ctx : Context} {names : List String} {bytes : Nat} {pair : String × Nat} :
    pair ∈ ctx.allPairs names bytes ↔
      pair.1 ∈ names ++ ctx.mentions ∧ pair.2 < Text.codeBound bytes := by
  obtain ⟨name, code⟩ := pair
  simp [allPairs]

theorem nodup_allPairs (ctx : Context) (names : List String) (bytes : Nat) :
    (ctx.allPairs names bytes).Nodup := by
  refine List.pairwise_flatMap.mpr ⟨fun name _ => ?_, ?_⟩
  · refine List.pairwise_map.mpr (List.nodup_range.imp fun hne heq => ?_)
    exact hne (Prod.mk.inj heq).2
  · refine (nodup_eraseDups (names ++ ctx.mentions)).imp fun hne pair hpair other hother heq => ?_
    obtain ⟨_, -, rfl⟩ := List.mem_map.mp hpair
    obtain ⟨_, -, rfl⟩ := List.mem_map.mp hother
    exact hne (Prod.mk.inj heq).1

theorem length_allPairs (ctx : Context) (names : List String) (bytes : Nat) :
    (ctx.allPairs names bytes).length = ctx.knownPairs names bytes := by
  rw [allPairs, knownPairs, knownNames, List.length_flatMap]
  simp only [List.length_map, List.length_range]
  rw [← List.sum_replicate_nat, ← List.map_const]
  rfl

/-- Those of the pairs that have no frame. -/
def openList (ctx : Context) (names : List String) (bytes : Nat) : List (String × Nat) :=
  (ctx.allPairs names bytes).filter (· ∉ ctx.frames.map Frame.pair)

theorem nodup_openList (ctx : Context) (names : List String) (bytes : Nat) :
    (ctx.openList names bytes).Nodup :=
  (nodup_allPairs ctx names bytes).filter _

theorem mem_openList_iff {ctx : Context} {names : List String} {bytes : Nat} {pair : String × Nat} :
    pair ∈ ctx.openList names bytes ↔
      (pair.1 ∈ names ++ ctx.mentions ∧ pair.2 < Text.codeBound bytes) ∧
        pair ∉ ctx.frames.map Frame.pair := by
  rw [openList, List.mem_filter, mem_allPairs_iff, decide_eq_true_iff]

theorem mem_enteredPairs_iff
    {ctx : Context} {names : List String} {bytes : Nat} {pair : String × Nat} :
    pair ∈ ctx.enteredPairs names bytes ↔
      (pair.1 ∈ names ++ ctx.mentions ∧ pair.2 < Text.codeBound bytes) ∧
        pair ∈ ctx.frames.map Frame.pair := by
  rw [enteredPairs, List.mem_eraseDups, List.mem_filter, decide_eq_true_iff, and_comm]

/-- The pairs that have been entered are the others. -/
theorem length_openList (ctx : Context) (names : List String) (bytes : Nat) :
    (ctx.openList names bytes).length = ctx.openPairs names bytes := by
  have hothers : (ctx.enteredPairs names bytes).length =
      ((ctx.allPairs names bytes).filter (· ∈ ctx.frames.map Frame.pair)).length := by
    refine Nat.le_antisymm
      (List.Nodup.length_le_of_subset (nodup_eraseDups _) fun pair hpair => ?_)
      (List.Nodup.length_le_of_subset ((nodup_allPairs ctx names bytes).filter _)
        fun pair hpair => ?_)
    · rwa [List.mem_filter, mem_allPairs_iff, decide_eq_true_iff, ← mem_enteredPairs_iff]
    · rwa [List.mem_filter, mem_allPairs_iff, decide_eq_true_iff, ← mem_enteredPairs_iff] at hpair
  have hsum := List.length_eq_countP_add_countP (l := ctx.allPairs names bytes)
    (decide <| · ∈ ctx.frames.map Frame.pair)
  simp only [List.countP_eq_length_filter, decide_eq_true_iff, length_allPairs] at hsum
  rw [openPairs, openList, hothers]
  omega

theorem openPairs_le_knownPairs (ctx : Context) (names : List String) (bytes : Nat) :
    ctx.openPairs names bytes ≤ ctx.knownPairs names bytes :=
  Nat.sub_le _ _

/-- Fewer names are fewer known names. -/
theorem knownNames_le
    {ctx ctx' : Context} {names names' : List String}
    (hnames : names ++ ctx.mentions ⊆ names' ++ ctx'.mentions) :
    ctx.knownNames names ≤ ctx'.knownNames names' := by
  refine List.Nodup.length_le_of_subset (nodup_eraseDups _) fun name hname => ?_
  rw [List.mem_eraseDups] at hname ⊢
  exact hnames hname

theorem knownPairs_le
    {ctx ctx' : Context} {names names' : List String} {bytes bytes' : Nat}
    (hbytes : bytes ≤ bytes') (hnames : names ++ ctx.mentions ⊆ names' ++ ctx'.mentions) :
    ctx.knownPairs names bytes ≤ ctx'.knownPairs names' bytes' :=
  Nat.mul_le_mul (knownNames_le hnames) (Text.codeBound_le hbytes)

/-- With the same frames, fewer names leave fewer pairs open. -/
theorem openPairs_le
    {ctx ctx' : Context} {names names' : List String} (bytes : Nat)
    (hframes : ctx.frames = ctx'.frames)
    (hnames : names ++ ctx.mentions ⊆ names' ++ ctx'.mentions) :
    ctx.openPairs names bytes ≤ ctx'.openPairs names' bytes := by
  rw [← length_openList, ← length_openList]
  refine List.Nodup.length_le_of_subset (nodup_openList _ _ _) fun pair hpair => ?_
  rw [mem_openList_iff] at hpair ⊢
  exact ⟨⟨hnames hpair.1.1, hpair.1.2⟩, hframes ▸ hpair.2⟩

/-- Entering a name uses a pair up. -/
theorem openPairs_enter_lt
    {ctx child : Context} {name : String} {names names' : List String} {input : Text}
    (henter : ctx.enter? name input = some child) (hname : name ∈ names')
    (hnames : names ++ ctx.mentions ⊆ names' ++ ctx.mentions) :
    child.openPairs names input.byteLength < ctx.openPairs names' input.byteLength := by
  obtain ⟨hopen, rfl⟩ := enter?_eq_some_iff.mp henter
  have hnew : Frame.mk name input ∉ ctx.frames := by simpa [contains] using hopen
  let child : Context := { ctx with frames := ⟨name, input⟩ :: ctx.frames }
  have hnodup : ((name, input.code) :: child.openList names input.byteLength).Nodup := by
    refine List.nodup_cons.mpr ⟨fun hmem => ?_, nodup_openList _ _ _⟩
    exact (mem_openList_iff.mp hmem).2 List.mem_cons_self
  rw [← length_openList, ← length_openList]
  refine List.Nodup.length_le_of_subset hnodup fun pair hpair => ?_
  rw [mem_openList_iff]
  rcases List.mem_cons.mp hpair with rfl | hpair
  · refine ⟨⟨List.mem_append_left _ hname, input.code_lt_codeBound⟩, fun hmem => ?_⟩
    obtain ⟨frame, hframe, hsame⟩ := List.mem_map.mp hmem
    obtain rfl : frame = ⟨name, input⟩ := Frame.pair_injective hsame
    exact hnew hframe
  · obtain ⟨⟨hknown, hcode⟩, hfree⟩ := mem_openList_iff.mp hpair
    exact ⟨⟨hnames hknown, hcode⟩, fun hmem => hfree (List.mem_cons_of_mem _ hmem)⟩

/-! ## Effort -/

/-- Three counts in one number: the first two weigh more than the third, which
stays below `width`. -/
theorem weigh_lt
    {a a' width width' size size' : Nat} (hwidth : width ≤ width') (hsize : size ≤ width)
    (hless : a < a' ∨ a = a' ∧ size < size') :
    a * (width + 1) + size < a' * (width' + 1) + size' := by
  rcases hless with hless | ⟨rfl, hless⟩
  · have hfirst : (a + 1) * (width + 1) ≤ a' * (width' + 1) :=
      Nat.mul_le_mul hless (Nat.succ_le_succ hwidth)
    rw [Nat.succ_mul] at hfirst
    omega
  · have hfirst : a * (width + 1) ≤ a * (width' + 1) :=
      Nat.mul_le_mul_left a (Nat.succ_le_succ hwidth)
    omega

/-- A smaller rule on the same input, with nothing entered, is less work. -/
theorem effort_lt_of_size_lt
    {ctx ctx' : Context} {names names' : List String} {size size' : Nat} (bytes : Nat)
    (hframes : ctx.frames = ctx'.frames)
    (hnames : names ++ ctx.mentions ⊆ names' ++ ctx'.mentions)
    (hlargest : ctx.largest ≤ max size' ctx'.largest) (hsize : size < size') :
    ctx.effort names size bytes < ctx'.effort names' size' bytes := by
  have hwidth : max size ctx.largest ≤ max size' ctx'.largest := by omega
  have hopen := openPairs_le bytes hframes hnames
  have hknown := Nat.mul_le_mul_left bytes
    (Nat.succ_le_succ (knownPairs_le (Nat.le_refl bytes) hnames))
  refine weigh_lt hwidth (Nat.le_max_left _ _) ?_
  simp only [Nat.succ_eq_add_one] at hknown
  omega

/-- On an input of fewer bytes everything is less work, whatever has been
entered. -/
theorem effort_lt_of_bytes_lt
    {ctx ctx' : Context} {names names' : List String} {size size' bytes bytes' : Nat}
    (hbytes : bytes < bytes') (hnames : names ++ ctx.mentions ⊆ names' ++ ctx'.mentions)
    (hlargest : ctx.largest ≤ max size' ctx'.largest) (hsize : size ≤ size') :
    ctx.effort names size bytes < ctx'.effort names' size' bytes' := by
  have hwidth : max size ctx.largest ≤ max size' ctx'.largest := by omega
  have hknown := Nat.mul_le_mul hbytes
    (Nat.succ_le_succ (knownPairs_le (Nat.le_of_lt hbytes) hnames))
  have hopen := openPairs_le_knownPairs ctx names bytes
  refine weigh_lt hwidth (Nat.le_max_left _ _) (.inl ?_)
  simp only [Nat.succ_eq_add_one, Nat.succ_mul] at hknown ⊢
  omega

theorem effort_le_of_bytes_le
    {ctx : Context} {names : List String} {size bytes bytes' : Nat} (hbytes : bytes ≤ bytes') :
    ctx.effort names size bytes ≤ ctx.effort names size bytes' := by
  rcases Nat.lt_or_eq_of_le hbytes with hless | rfl
  · exact Nat.le_of_lt (effort_lt_of_bytes_lt hless (List.Subset.refl _) (Nat.le_max_right _ _)
      (Nat.le_refl size))
  · exact Nat.le_refl _

/-- What is matched once a name has been entered is less work than matching the
name, as long as it mentions no more and is no larger. -/
theorem effort_enter_lt
    {ctx child : Context} {name : String} {names names' : List String} {size size' : Nat}
    {input : Text} (henter : ctx.enter? name input = some child) (hname : name ∈ names')
    (hnames : names ++ ctx.mentions ⊆ names' ++ ctx.mentions)
    (hsize : size ≤ max size' ctx.largest) :
    child.effort names size input.byteLength < ctx.effort names' size' input.byteLength := by
  have hopen := openPairs_enter_lt henter hname hnames
  obtain ⟨-, rfl⟩ := enter?_eq_some_iff.mp henter
  have hknown := Nat.mul_le_mul_left input.byteLength
    (Nat.succ_le_succ (knownPairs_le (Nat.le_refl input.byteLength) hnames))
  have hwidth : max size ctx.largest ≤ max size' ctx.largest := by omega
  refine weigh_lt hwidth (Nat.le_max_left _ _) (.inl ?_)
  simp only [Nat.succ_eq_add_one] at hknown
  exact Nat.lt_of_lt_of_le (Nat.add_lt_add_left hopen _) (Nat.add_le_add_right hknown _)

/-- Following a reference is less work than matching it. -/
theorem effort_target_lt
    {ctx child : Context} {name : String} {target : Rule} {names : List String} {size : Nat}
    {input : Text} (hresolve : ctx.resolve? name = some target)
    (henter : ctx.enter? name input = some child) (hname : name ∈ names) :
    child.effort target.mentions target.size input.byteLength <
      ctx.effort names size input.byteLength := by
  have hmentions := mentions_subset_of_resolve? hresolve
  have htarget := size_le_largest (mem_rules_of_resolve? hresolve)
  refine effort_enter_lt henter hname (fun other hother => ?_) (by omega)
  rw [List.mem_append] at hother ⊢
  exact .inr (hother.elim (hmentions ·) id)

end Context
end GrammarRepair
