import Mathlib.Data.List.Range
import Mathlib.Data.Nat.ModEq
import Mathlib.Logic.Function.Basic
import Mathlib.Tactic.SplitIfs

/-! A circular buffer of fixed capacity that is written at one end and read at the other, and
the list of what waits in it. -/

/-- `head` is written next and `tail` is read next. -/
structure RingBuffer (α : Type) (cap : Nat) where
  slots : Nat → α
  head : Nat
  tail : Nat
  count : Nat
  tail_lt : tail < cap
  bound : count ≤ cap
  aligned : head = (tail + count) % cap

namespace RingBuffer

variable {α : Type} {cap : Nat}

def empty (positive : 0 < cap) (blank : α) : RingBuffer α cap where
  slots := fun _ => blank
  head := 0
  tail := 0
  count := 0
  tail_lt := positive
  bound := Nat.zero_le _
  aligned := (Nat.zero_mod _).symm

def full (r : RingBuffer α cap) : Bool := r.count = cap

theorem add_one_aligned (r : RingBuffer α cap) :
    (r.head + 1) % cap = (r.tail + (r.count + 1)) % cap := by
  rw [r.aligned, Nat.mod_add_mod, Nat.add_assoc]

/-- A full buffer takes nothing. -/
def push (r : RingBuffer α cap) (x : α) : Option (RingBuffer α cap) :=
  if room : r.count < cap then
    some { r with
      slots := Function.update r.slots r.head x
      head := (r.head + 1) % cap
      count := r.count + 1
      bound := room
      aligned := r.add_one_aligned }
  else none

/-- The reading loop, which gives back where it stopped. -/
def readFrom (cap : Nat) (slots : Nat → α) : Nat → Nat → List α × Nat
  | 0, tail => ([], tail)
  | n + 1, tail =>
    let (rest, stop) := readFrom cap slots n ((tail + 1) % cap)
    (slots tail :: rest, stop)

theorem readFrom_eq (slots : Nat → α) (n : Nat) {tail : Nat} (inside : tail < cap) :
    readFrom cap slots n tail = ((List.range n).map fun k => slots ((tail + k) % cap),
      (tail + n) % cap) := by
  induction n generalizing tail with
  | zero =>
    rw [readFrom, Nat.add_zero, Nat.mod_eq_of_lt inside]
    rfl
  | succ n ih =>
    have next : (tail + 1) % cap < cap := Nat.mod_lt _ (by omega)
    have later : ∀ k, ((tail + 1) % cap + k) % cap = (tail + (k + 1)) % cap := by
      intro k
      rw [Nat.mod_add_mod, Nat.add_assoc, Nat.add_comm 1 k]
    simp only [readFrom, ih next, later, List.range_succ_eq_map, List.map_cons, List.map_map,
      Nat.add_zero, Nat.mod_eq_of_lt inside, Function.comp_def, Nat.succ_eq_add_one]

/-- Take up to `most` out of the buffer, oldest first. -/
def drain (r : RingBuffer α cap) (most : Nat) : List α × RingBuffer α cap :=
  let take := min r.count most
  ((readFrom cap r.slots take r.tail).1,
    { r with
      tail := (readFrom cap r.slots take r.tail).2
      count := r.count - take
      tail_lt := by
        rw [readFrom_eq r.slots take r.tail_lt]
        exact Nat.mod_lt _ (Nat.zero_lt_of_lt r.tail_lt)
      bound := (Nat.sub_le _ _).trans r.bound
      aligned := by
        have part : take ≤ r.count := Nat.min_le_left _ _
        rw [readFrom_eq r.slots take r.tail_lt, r.aligned, Nat.mod_add_mod, Nat.add_assoc,
          Nat.add_sub_cancel' part] })

/-- What waits in the buffer, oldest first. -/
def contents (r : RingBuffer α cap) : List α :=
  (List.range r.count).map fun k => r.slots ((r.tail + k) % cap)

@[simp] theorem length_contents (r : RingBuffer α cap) : r.contents.length = r.count := by
  simp [contents]

@[simp] theorem contents_empty (positive : 0 < cap) (blank : α) :
    (empty positive blank).contents = [] := rfl

theorem push_none_iff (r : RingBuffer α cap) (x : α) : r.push x = none ↔ r.full = true := by
  have := r.bound
  rw [push, full, decide_eq_true_eq]
  split_ifs with room
  · simp only [false_iff]
    omega
  · simp only [true_iff]
    omega

theorem push_contents {r after : RingBuffer α cap} (pushed : r.push x = some after) :
    after.contents = r.contents ++ [x] := by
  rw [push] at pushed
  split at pushed
  next room =>
    obtain rfl := Option.some.inj pushed
    have kept : ∀ k < r.count,
        Function.update r.slots r.head x ((r.tail + k) % cap) = r.slots ((r.tail + k) % cap) := by
      intro k earlier
      apply Function.update_of_ne
      rw [r.aligned]
      intro same
      -- two places less than a whole turn apart
      have turn :=
        (Nat.ModEq.add_left_cancel' r.tail (show r.tail + k ≡ r.tail + r.count [MOD cap] from same))
      rw [Nat.ModEq, Nat.mod_eq_of_lt (by omega), Nat.mod_eq_of_lt room] at turn
      omega
    simp only [contents, List.range_succ, List.map_append, List.map_singleton]
    rw [← r.aligned, Function.update_self,
      List.map_congr_left fun k member => kept k (List.mem_range.mp member)]
  next => contradiction

theorem drain_fst (r : RingBuffer α cap) (most : Nat) :
    (r.drain most).1 = r.contents.take most := by
  have read := congrArg Prod.fst (readFrom_eq r.slots (min r.count most) r.tail_lt)
  rw [contents, ← List.map_take, List.take_range, Nat.min_comm]
  exact read

theorem drain_contents (r : RingBuffer α cap) (most : Nat) :
    (r.drain most).2.contents = r.contents.drop most := by
  have part : min r.count most ≤ r.count := Nat.min_le_left _ _
  apply List.ext_getElem
  · simp [drain, length_contents]
    omega
  · intro k left right
    simp only [contents, drain, readFrom_eq r.slots _ r.tail_lt, List.getElem_map,
      List.getElem_range, List.getElem_drop]
    simp only [length_contents, drain] at left
    rw [Nat.mod_add_mod, Nat.add_assoc, Nat.min_eq_right (by omega)]

end RingBuffer
