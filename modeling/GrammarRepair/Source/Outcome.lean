import GrammarRepair.Source.Position

/-!
# Outcomes of reading

A reader looks at the beginning of the text it is given.  It may find what it
looks for; it may miss it, and then something else can be tried; or it may get
stuck inside of it, and then the source is in error at that place.  Each outcome
keeps the text left at that moment, which is always an end of the given one, and
what is found uses up at least one character.  `Progresses` says so, and the
recursion of the readers rests on it.
-/

namespace GrammarRepair.Source

/-- A place where reading cannot go on: the text left, and what was expected. -/
structure Stuck where
  rest : Text
  expected : List Expectation := []
deriving DecidableEq, Repr, Inhabited

/-- What became of an attempt to read. -/
inductive Outcome (α : Type) where
  /-- Found, with the text behind it. -/
  | found (value : α) (rest : Text)
  /-- Not there; the text left where that showed. -/
  | missing (rest : Text)
  /-- Begun, but not well formed. -/
  | stuck (failure : Stuck)
deriving DecidableEq, Repr, Inhabited

/-- What became of reading something that must be there, though it may be
empty. -/
abbrev Reading (α : Type) := Except Stuck (α × Text)

namespace Outcome

variable {α β : Type}

/-- Change what was found. -/
def map (f : α → β) : Outcome α → Outcome β
  | .found value rest => .found (f value) rest
  | .missing rest => .missing rest
  | .stuck failure => .stuck failure

theorem map_eq_found_iff {f : α → β} {outcome : Outcome α} {value : β} {rest : Text} :
    outcome.map f = .found value rest ↔ ∃ inner, outcome = .found inner rest ∧ f inner = value := by
  cases outcome with
  | found inner later =>
      simp only [map, found.injEq]
      constructor
      · rintro ⟨rfl, rfl⟩
        exact ⟨inner, ⟨rfl, rfl⟩, rfl⟩
      · rintro ⟨_, ⟨rfl, rfl⟩, rfl⟩
        exact ⟨rfl, rfl⟩
  | missing later => simp [map]
  | stuck failure => simp [map]

theorem map_eq_stuck_iff {f : α → β} {outcome : Outcome α} {failure : Stuck} :
    outcome.map f = .stuck failure ↔ outcome = .stuck failure := by
  cases outcome <;> simp [map]

/-- Insist: what is missing is an error at the place where it is missing. -/
def require (expected : List Expectation) : Outcome α → Reading α
  | .found value rest => .ok (value, rest)
  | .missing rest => .error ⟨rest, expected⟩
  | .stuck failure => .error ⟨failure.rest, failure.expected ++ expected⟩

theorem require_eq_ok_iff
    {outcome : Outcome α} {expected : List Expectation} {value : α} {rest : Text} :
    outcome.require expected = .ok (value, rest) ↔ outcome = .found value rest := by
  cases outcome <;> simp [require]

/-- Insisting fails where the attempt misses or gets stuck. -/
theorem eq_missing_or_stuck_of_require
    {outcome : Outcome α} {expected : List Expectation} {failure : Stuck}
    (h : outcome.require expected = .error failure) :
    outcome = .missing failure.rest ∨
      ∃ inner, outcome = .stuck inner ∧ inner.rest = failure.rest := by
  cases outcome with
  | found value rest => simp [require] at h
  | missing rest =>
      obtain rfl := Except.error.inj h
      exact .inl rfl
  | stuck inner =>
      obtain rfl := Except.error.inj h
      exact .inr ⟨inner, rfl, rfl⟩

/-- What is left is an end of the text, and finding something uses up a
character. -/
def Progresses (text : Text) : Outcome α → Prop
  | .found _ rest => rest <:+ text ∧ rest.length < text.length
  | .missing rest => rest <:+ text
  | .stuck failure => failure.rest <:+ text

theorem Progresses.length_lt {text rest : Text} {outcome : Outcome α} {value : α}
    (h : outcome.Progresses text) (hfound : outcome = .found value rest) :
    rest.length < text.length := by
  subst hfound
  exact h.2

theorem Progresses.map {text : Text} {outcome : Outcome α} (f : α → β)
    (h : outcome.Progresses text) : (outcome.map f).Progresses text := by
  cases outcome <;> exact h

/-- Reading that progresses on an end of a text progresses on the text. -/
theorem Progresses.of_suffix {text later : Text} {outcome : Outcome α}
    (h : outcome.Progresses later) (hlater : later <:+ text) : outcome.Progresses text := by
  cases outcome with
  | found value rest => exact ⟨h.1.trans hlater, Nat.lt_of_lt_of_le h.2 hlater.length_le⟩
  | missing rest => exact List.IsSuffix.trans h hlater
  | stuck failure => exact List.IsSuffix.trans h hlater

end Outcome

namespace Reading

variable {α β : Type}

/-- What is left is an end of the text. -/
def Keeps (text : Text) : Reading α → Prop
  | .ok (_, rest) => rest <:+ text
  | .error failure => failure.rest <:+ text

/-- Change the value that was read. -/
def mapValue (f : α → β) : Reading α → Reading β
  | .ok (value, rest) => .ok (f value, rest)
  | .error failure => .error failure

/-- Note what was being read, behind whatever was expected inside of it. -/
def expecting (expectation : Expectation) : Reading α → Reading α
  | .ok result => .ok result
  | .error failure => .error ⟨failure.rest, failure.expected ++ [expectation]⟩

/-- The same outcome as that of an attempt, which cannot miss. -/
def toOutcome : Reading α → Outcome α
  | .ok (value, rest) => .found value rest
  | .error failure => .stuck failure

theorem bind_eq_ok_iff
    {reading : Reading α} {next : α × Text → Reading β} {result : β × Text} :
    Except.bind reading next = .ok result ↔
      ∃ value rest, reading = .ok (value, rest) ∧ next (value, rest) = .ok result := by
  cases reading with
  | error failure => simp [Except.bind]
  | ok read =>
      constructor
      · intro h
        exact ⟨read.1, read.2, rfl, h⟩
      · rintro ⟨value, rest, hread, h⟩
        obtain rfl := Except.ok.inj hread
        exact h

theorem bind_eq_error_iff
    {reading : Reading α} {next : α × Text → Except Stuck β} {failure : Stuck} :
    Except.bind reading next = .error failure ↔
      reading = .error failure ∨
        ∃ value rest, reading = .ok (value, rest) ∧ next (value, rest) = .error failure := by
  cases reading with
  | error inner => simp [Except.bind]
  | ok read =>
      constructor
      · intro h
        exact .inr ⟨read.1, read.2, rfl, h⟩
      · rintro (h | ⟨value, rest, hread, h⟩)
        · simp at h
        · obtain rfl := Except.ok.inj hread
          exact h

theorem mapValue_eq_ok_iff {f : α → β} {reading : Reading α} {value : β} {rest : Text} :
    reading.mapValue f = .ok (value, rest) ↔
      ∃ inner, reading = .ok (inner, rest) ∧ f inner = value := by
  cases reading with
  | error failure => simp [mapValue]
  | ok read =>
      obtain ⟨inner, later⟩ := read
      simp only [mapValue, Except.ok.injEq, Prod.mk.injEq]
      constructor
      · rintro ⟨rfl, rfl⟩
        exact ⟨inner, ⟨rfl, rfl⟩, rfl⟩
      · rintro ⟨_, ⟨rfl, rfl⟩, rfl⟩
        exact ⟨rfl, rfl⟩

theorem mapValue_eq_error_iff {f : α → β} {reading : Reading α} {failure : Stuck} :
    reading.mapValue f = .error failure ↔ reading = .error failure := by
  cases reading <;> simp [mapValue]

theorem expecting_eq_ok_iff
    {expectation : Expectation} {reading : Reading α} {result : α × Text} :
    reading.expecting expectation = .ok result ↔ reading = .ok result := by
  cases reading <;> simp [expecting]

/-- Noting what was read leaves the place of an error as it is. -/
theorem exists_error_of_expecting
    {expectation : Expectation} {reading : Reading α} {failure : Stuck}
    (h : reading.expecting expectation = .error failure) :
    ∃ inner, reading = .error inner ∧ inner.rest = failure.rest := by
  cases reading with
  | ok result => simp [expecting] at h
  | error inner =>
      obtain rfl := Except.error.inj h
      exact ⟨inner, rfl, rfl⟩

theorem toOutcome_eq_found_iff {reading : Reading α} {value : α} {rest : Text} :
    reading.toOutcome = .found value rest ↔ reading = .ok (value, rest) := by
  cases reading with
  | error failure => simp [toOutcome]
  | ok read => simp [toOutcome, Prod.ext_iff]

theorem toOutcome_eq_stuck_iff {reading : Reading α} {failure : Stuck} :
    reading.toOutcome = .stuck failure ↔ reading = .error failure := by
  cases reading <;> simp [toOutcome]

theorem Keeps.length_le {text rest : Text} {reading : Reading α} {value : α}
    (h : Keeps text reading) (hread : reading = .ok (value, rest)) :
    rest.length ≤ text.length := by
  subst hread
  exact List.IsSuffix.length_le h

theorem Keeps.mapValue {text : Text} {reading : Reading α} (f : α → β)
    (h : Keeps text reading) : Keeps text (reading.mapValue f) := by
  cases reading <;> exact h

theorem Keeps.expecting {text : Text} {reading : Reading α} (expectation : Expectation)
    (h : Keeps text reading) : Keeps text (reading.expecting expectation) := by
  cases reading <;> exact h

theorem Keeps.toOutcome {text later : Text} {reading : Reading α}
    (h : Keeps later reading) (hlater : later <:+ text) (hless : later.length < text.length) :
    reading.toOutcome.Progresses text := by
  cases reading with
  | error failure => exact List.IsSuffix.trans h hlater
  | ok result =>
      exact ⟨List.IsSuffix.trans h hlater, Nat.lt_of_le_of_lt (List.IsSuffix.length_le h) hless⟩

theorem Keeps.of_suffix {text later : Text} {reading : Reading α}
    (h : Keeps later reading) (hlater : later <:+ text) : Keeps text reading := by
  cases reading <;> exact List.IsSuffix.trans h hlater

theorem keeps_bind
    {text : Text} {reading : Reading α} {next : α × Text → Reading β}
    (h : Keeps text reading)
    (hnext : ∀ value rest, rest <:+ text → Keeps text (next (value, rest))) :
    Keeps text (Except.bind reading next) := by
  cases reading with
  | error failure => exact h
  | ok result => exact hnext result.1 result.2 h

theorem keeps_require {text : Text} {outcome : Outcome α} {expected : List Expectation}
    (h : outcome.Progresses text) : Keeps text (outcome.require expected) := by
  cases outcome with
  | found value rest => exact h.1
  | missing rest => exact h
  | stuck failure => exact h

end Reading
end GrammarRepair.Source
