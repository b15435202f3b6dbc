import StageArchive.ByteOrder
import StageArchive.Proofs.Outcome
/-!
# Steps that never reach outside

A guarded step looks first whether what it takes from a list is there, and whether a difference that it
forms is one. Either it settles on an outcome, which may be a fault, or it would have to reach where
nothing is. The lemmas say when a guarded step settles on an outcome that is known otherwise.
-/

namespace StageArchive

/-- What a step would have to reach although it is not there. -/
inductive Overreach where
  /-- The items from a place up to another, of a list of this length. -/
  | slice (first last length : Nat)
  /-- The item at a place of a list of this length. -/
  | element (place length : Nat)
  /-- A difference below zero. -/
  | difference (first second : Nat)
  deriving DecidableEq, Repr

/-- A step that may fail and could reach outside. -/
abbrev Guarded (ε α : Type) := ExceptT ε (Except Overreach) α

namespace Guarded

variable {ε ε' α β : Type}

/-- A step that has an outcome without reaching for anything. -/
def settled (outcome : Except ε α) : Guarded ε α :=
  ExceptT.mk (.ok outcome)

/-- A step that reaches outside. -/
def overreach (reach : Overreach) : Guarded ε α :=
  ExceptT.mk (.error reach)

/-- The bytes from a place up to another. -/
def slice (bytes : Bytes) (first last : Nat) : Guarded ε Bytes :=
  if first ≤ last ∧ last ≤ bytes.length then pure ((bytes.drop first).take (last - first))
  else overreach (.slice first last bytes.length)

/-- The bytes from a place on. -/
def sliceFrom (bytes : Bytes) (first : Nat) : Guarded ε Bytes :=
  slice bytes first bytes.length

/-- The item at a place. -/
def element (items : List α) (place : Nat) : Guarded ε α :=
  match items[place]? with
  | some item => pure item
  | none => overreach (.element place items.length)

/-- A number less another that is not greater. -/
def difference (first second : Nat) : Guarded ε Nat :=
  if second ≤ first then pure (first - second) else overreach (.difference first second)

/-- The step with its faults in other words. -/
def reword (change : ε → ε') (step : Guarded ε α) : Guarded ε' α :=
  ExceptT.mk (step.run.map (·.mapError change))

/-- A step that succeeds has one result. -/
theorem pure_inj {first second : α} (h : (pure first : Guarded ε α) = pure second) : first = second :=
  Except.ok.inj (Except.ok.inj h)

/-- A step after one that succeeds. -/
@[simp]
theorem settled_ok_bind (value : α) (next : α → Guarded ε β) :
    (settled (.ok value) >>= next) = next value :=
  rfl

/-- Steps that settle one after the other settle together. -/
theorem settled_bind {outcome : Except ε α} {next : α → Guarded ε β} {after : α → Except ε β}
    (h : ∀ value, outcome = .ok value → next value = settled (after value)) :
    (settled outcome >>= next) = settled (outcome >>= after) := by
  cases outcome with
  | error fault => rfl
  | ok value => exact h value rfl

/-- A step that settles does so also when its result is changed. -/
@[simp]
theorem map_settled (change : α → β) (outcome : Except ε α) :
    change <$> settled outcome = settled (change <$> outcome) := by
  cases outcome <;> rfl

/-- A step that settles does so also in other words. -/
@[simp]
theorem reword_settled (change : ε → ε') (outcome : Except ε α) :
    reword change (settled outcome) = settled (outcome.mapError change) :=
  rfl

/-- Bytes that are there are taken. -/
theorem slice_eq {bytes : Bytes} {first last : Nat} (hfirst : first ≤ last)
    (hlast : last ≤ bytes.length) :
    (slice bytes first last : Guarded ε Bytes) = settled (.ok ((bytes.drop first).take (last - first))) :=
  if_pos ⟨hfirst, hlast⟩

/-- Bytes from a place on are taken when the place is no further than the end. -/
theorem sliceFrom_eq {bytes : Bytes} {first : Nat} (h : first ≤ bytes.length) :
    (sliceFrom bytes first : Guarded ε Bytes) = settled (.ok (bytes.drop first)) := by
  rw [sliceFrom, slice_eq h (Nat.le_refl _), List.take_of_length_le (Nat.le_of_eq List.length_drop)]

/-- An item that is there is taken. -/
theorem element_eq {items : List α} {place : Nat} {item : α} (h : items[place]? = some item) :
    (element items place : Guarded ε α) = settled (.ok item) := by
  rw [element, h]
  rfl

/-- A difference is formed when the second number is not greater. -/
theorem difference_eq {first second : Nat} (h : second ≤ first) :
    (difference first second : Guarded ε Nat) = settled (.ok (first - second)) :=
  if_pos h

end Guarded

end StageArchive
