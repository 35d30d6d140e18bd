import Mathlib.Algebra.GroupWithZero.Nat
import Mathlib.Data.List.Basic

/-! A buffer that doubles until what is appended fits. Memory that was allocated and
not written yet holds a filler. -/
namespace GrowBuffer

variable {α : Type}

structure Buffer (α : Type) where
  mem : List α
  len : Nat

/-- Doubling up to what is needed. -/
def doubled (need : Nat) (capacity : Nat) (positive : 0 < capacity) : Nat :=
  if capacity < need then doubled need (capacity * 2) (by omega) else capacity
termination_by need - capacity

theorem le_doubled (need capacity : Nat) (positive : 0 < capacity) :
    need ≤ doubled need capacity positive := by
  fun_induction doubled need capacity positive with
  | case1 capacity positive below ih => exact ih
  | case2 capacity positive enough => exact Nat.not_lt.mp enough

/-- The size after a reallocation; an empty buffer starts at `first`. -/
def grown (first need capacity : Nat) [NeZero first] : Nat :=
  doubled need (if capacity = 0 then first else capacity * 2) (by
    have := Nat.pos_of_neZero first
    split <;> omega)

/-- Room for `room` more items. -/
def Buffer.reserve (first : Nat) [NeZero first] (fill : α) (b : Buffer α) (room : Nat) : Buffer α :=
  if b.mem.length < b.len + room then
    { b with
      mem := b.mem ++ List.replicate (grown first (b.len + room) b.mem.length - b.mem.length) fill }
  else b

/-- Items written past those in use, or nothing when they leave the buffer. -/
def Buffer.push (b : Buffer α) (items : List α) : Option (Buffer α) :=
  if b.len + items.length ≤ b.mem.length then
    some ⟨b.mem.take b.len ++ items ++ b.mem.drop (b.len + items.length), b.len + items.length⟩
  else none

def Buffer.append (first : Nat) [NeZero first] (fill : α) (b : Buffer α) (room : Nat)
    (items : List α) : Option (Buffer α) :=
  (b.reserve first fill room).push items

/-- What is in use lies in the buffer, and is these items. -/
structure Buffer.Holds (b : Buffer α) (items : List α) : Prop where
  inside : b.len ≤ b.mem.length
  used : b.mem.take b.len = items

theorem Buffer.holds_nil (mem : List α) : (Buffer.mk mem 0).Holds [] :=
  ⟨Nat.zero_le _, List.take_zero⟩

section
variable {b : Buffer α} {items more : List α} {room : Nat}

theorem Buffer.Holds.reserve (holds : b.Holds items) (first : Nat) [NeZero first] (fill : α)
    (room : Nat) :
    (b.reserve first fill room).Holds items ∧
      (b.reserve first fill room).len + room ≤ (b.reserve first fill room).mem.length := by
  rw [Buffer.reserve]
  split_ifs with short
  · have enough : b.len + room ≤ grown first (b.len + room) b.mem.length := le_doubled ..
    have inside := holds.inside
    refine ⟨⟨?_, ?_⟩, ?_⟩ <;> dsimp only
    · rw [List.length_append]
      omega
    · rw [List.take_append_of_le_length inside, holds.used]
    · rw [List.length_append, List.length_replicate]
      omega
  · exact ⟨holds, by omega⟩

theorem Buffer.Holds.push (holds : b.Holds items) (fits : b.len + more.length ≤ b.mem.length) :
    ∃ b', b.push more = some b' ∧ b'.Holds (items ++ more) := by
  have front : (b.mem.take b.len ++ more).length = b.len + more.length := by
    rw [List.length_append, List.length_take_of_le holds.inside]
  refine ⟨_, if_pos fits, ?_, ?_⟩ <;> dsimp only
  · rw [List.length_append, front]
    omega
  · rw [List.take_left' front, holds.used]

/-- Appending never leaves the buffer when the room that was asked for is enough. -/
theorem Buffer.Holds.append (holds : b.Holds items) (first : Nat) [NeZero first] (fill : α)
    (enough : more.length ≤ room) :
    ∃ b', b.append first fill room more = some b' ∧ b'.Holds (items ++ more) := by
  obtain ⟨kept, reserved⟩ := holds.reserve first fill room
  exact kept.push (by omega)

end

end GrowBuffer
