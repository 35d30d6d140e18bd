import Mathlib.Data.Finset.Card
import Mathlib.Data.List.Nodup
import Mathlib.Data.List.TakeWhile
import Mathlib.Logic.Function.Basic
import Mathlib.Tactic.SplitIfs

/-! A set that remembers the last `cap` keys recorded in it and forgets the
oldest first, and the circular buffer that represents one. -/
namespace BoundedFifo

variable {α : Type}

/-- Keys newest first. A key already remembered is reported and changes
nothing; any other is recorded, at the price of the oldest when `cap` are held. -/
def checkAndAdd [DecidableEq α] (cap : Nat) (recent : List α) (key : α) : Bool × List α :=
  if key ∈ recent then (true, recent) else (false, (key :: recent).take cap)

theorem length_take_cons {recent : List α} (bound : recent.length ≤ cap) (key : α) :
    ((key :: recent).take cap).length = if recent.length = cap then cap else recent.length + 1 := by
  rw [List.length_take, List.length_cons]
  split_ifs <;> omega

theorem take_append_take (cap : Nat) (front back : List α) :
    (front ++ back.take cap).take cap = (front ++ back).take cap := by
  rw [List.take_append, List.take_append, List.take_take, Nat.min_eq_left (Nat.sub_le _ _)]

theorem take_cons_take (cap : Nat) (key : α) (recent : List α) :
    (key :: recent.take cap).take cap = (key :: recent).take cap :=
  take_append_take cap [key] recent

theorem nodup_record {recent : List α} (distinct : recent.Nodup) (fresh : key ∉ recent) :
    ((key :: recent).take cap).Nodup :=
  (List.nodup_cons.mpr ⟨fresh, distinct⟩).sublist (List.take_sublist _ _)

/-- The buffer slot of the `j`-th newest key, for a buffer about to write `head`. -/
def slot (cap head j : Nat) : Nat := if j < head then head - 1 - j else cap + head - 1 - j

theorem advance_head (headLt : head < cap) :
    (head + 1) % cap = if head + 1 = cap then 0 else head + 1 := by
  split_ifs with last
  · rw [last, Nat.mod_self]
  · exact Nat.mod_eq_of_lt (by omega)

/-- Once the head has moved on, the slot it wrote is the newest, -/
theorem slot_advance_zero (headLt : head < cap) : slot cap ((head + 1) % cap) 0 = head := by
  rw [advance_head headLt]
  unfold slot
  split_ifs <;> omega

/-- and every other slot is one older. -/
theorem slot_advance_succ (headLt : head < cap) (inside : j + 1 < cap) :
    slot cap ((head + 1) % cap) (j + 1) = slot cap head j := by
  rw [advance_head headLt]
  unfold slot
  split_ifs <;> omega

/-- The oldest slot is the one about to be written. -/
theorem slot_lt_of_ne (headLt : head < cap) (inside : j < cap) (spared : slot cap head j ≠ head) :
    j + 1 < cap := by
  unfold slot at spared
  split_ifs at spared <;> omega

/-- A circular buffer of `cap` slots holds `recent`. While it has not filled up
it has been written from slot 0. -/
structure Holds (cap : Nat) (ring : Nat → α) (head count : Nat) (recent : List α) : Prop where
  head_lt : head < cap
  length_eq : recent.length = count
  bound : count ≤ cap
  filling : count < cap → head = count
  entry : ∀ (j : Nat) (range : j < recent.length), ring (slot cap head j) = recent[j]

theorem holds_empty (positive : 0 < cap) (ring : Nat → α) : Holds cap ring 0 0 [] :=
  ⟨positive, rfl, Nat.zero_le _, fun _ => rfl, fun _ range => absurd range (Nat.not_lt_zero _)⟩

section

variable {cap head count : Nat} {ring : Nat → α} {recent : List α}

/-- A full buffer overwrites its oldest key next. -/
theorem Holds.oldest (holds : Holds cap ring head count recent) (full : count = cap) :
    recent[cap - 1]? = some (ring head) := by
  have headLt := holds.head_lt
  have lengthEq := holds.length_eq
  have range : cap - 1 < recent.length := by omega
  have last : slot cap head (cap - 1) = head := by
    unfold slot
    split_ifs <;> omega
  rw [List.getElem?_eq_getElem range, ← holds.entry (cap - 1) range, last]

/-- The live slots are those below `count`, whether or not the buffer has filled up. -/
theorem Holds.mem_iff (holds : Holds cap ring head count recent) (key : α) :
    key ∈ recent ↔ ∃ i < count, ring i = key := by
  have headLt := holds.head_lt
  have lengthEq := holds.length_eq
  have bound := holds.bound
  have filling := holds.filling
  constructor
  · intro member
    obtain ⟨j, range, rfl⟩ := List.getElem_of_mem member
    refine ⟨slot cap head j, ?_, holds.entry j range⟩
    unfold slot
    split_ifs <;> omega
  · rintro ⟨i, live, rfl⟩
    -- the age of slot `i` is its distance back from the head
    have range : slot cap head i < recent.length := by
      unfold slot
      split_ifs <;> omega
    have back : slot cap head (slot cap head i) = i := by
      unfold slot
      split_ifs <;> omega
    have entry := holds.entry _ range
    rw [back] at entry
    exact entry ▸ List.getElem_mem range

theorem Holds.record (holds : Holds cap ring head count recent) (key : α) :
    Holds cap (Function.update ring head key) (if head + 1 = cap then 0 else head + 1)
      (if count = cap then count else count + 1) ((key :: recent).take cap) := by
  have headLt := holds.head_lt
  have lengthEq := holds.length_eq
  have bound := holds.bound
  have filling := holds.filling
  refine ⟨?_, ?_, ?_, ?_, ?_⟩
  · split_ifs <;> omega
  · rw [length_take_cons (by omega)]
    split_ifs <;> omega
  · split_ifs <;> omega
  · split_ifs <;> omega
  · intro j range
    rw [length_take_cons (by omega)] at range
    rw [List.getElem_take]
    cases j with
    | zero =>
      have here : slot cap (if head + 1 = cap then 0 else head + 1) 0 = head := by
        unfold slot
        split_ifs <;> omega
      rw [here, Function.update_self, List.getElem_cons_zero]
    | succ j =>
      have inside : j < recent.length := by split_ifs at range <;> omega
      have shifted :
          slot cap (if head + 1 = cap then 0 else head + 1) (j + 1) = slot cap head j := by
        unfold slot
        split_ifs at range ⊢ <;> omega
      have apart : slot cap head j ≠ head := by
        unfold slot
        split_ifs at range ⊢ <;> omega
      rw [shifted, Function.update_of_ne apart, holds.entry j inside, List.getElem_cons_succ]

/-- A live slot that is written in place keeps its age. -/
theorem Holds.overwrite (holds : Holds cap ring head count recent) (live : i < count) (key : α) :
    ∃ (j : Nat) (range : j < recent.length), recent[j] = ring i ∧
      Holds cap (Function.update ring i key) head count (recent.set j key) := by
  have headLt := holds.head_lt
  have lengthEq := holds.length_eq
  have bound := holds.bound
  have filling := holds.filling
  have range : slot cap head i < recent.length := by
    unfold slot
    split_ifs <;> omega
  have back : slot cap head (slot cap head i) = i := by
    unfold slot
    split_ifs <;> omega
  refine ⟨slot cap head i, range, ?_, headLt, ?_, bound, filling, ?_⟩
  · rw [← holds.entry _ range, back]
  · rw [List.length_set, lengthEq]
  · intro j inside
    rw [List.length_set] at inside
    rw [List.getElem_set]
    split_ifs with same
    · rw [← same, back, Function.update_self]
    · have apart : slot cap head j ≠ i := by
        unfold slot at same ⊢
        split_ifs at same ⊢ <;> omega
      rw [Function.update_of_ne apart, holds.entry j inside]

/-- What recording a new key does to the remembered set. -/
theorem mem_record (positive : 0 < cap) (distinct : recent.Nodup) (bound : recent.length ≤ cap)
    (key other : α) : other ∈ (key :: recent).take cap ↔
      other = key ∨ (other ∈ recent ∧ recent[cap - 1]? ≠ some other) := by
  obtain ⟨cap, rfl⟩ : ∃ c, cap = c + 1 := ⟨cap - 1, by omega⟩
  rw [List.take_succ_cons, List.mem_cons, Nat.add_sub_cancel]
  refine or_congr Iff.rfl ?_
  constructor
  · intro kept
    refine ⟨List.mem_of_mem_take kept, ?_⟩
    intro oldest
    obtain ⟨range, last⟩ := List.getElem?_eq_some_iff.mp oldest
    obtain ⟨j, hj, value⟩ := List.getElem_of_mem kept
    rw [List.getElem_take] at value
    rw [List.length_take] at hj
    have equal := (distinct.getElem_inj_iff).mp (value.trans last.symm)
    omega
  · rintro ⟨member, spared⟩
    obtain ⟨j, hj, rfl⟩ := List.getElem_of_mem member
    by_cases inside : j < cap
    · exact List.mem_take_iff_getElem.mpr ⟨j, by omega, rfl⟩
    · have last : j = cap := by omega
      subst last
      exact absurd (List.getElem?_eq_getElem hj) spared

end

section Feed

variable [DecidableEq α] {recent : List α}

def feed (cap : Nat) (recent keys : List α) : List α :=
  keys.foldl (fun recent key => (checkAndAdd cap recent key).2) recent

theorem feed_concat (cap : Nat) (recent keys : List α) (key : α) :
    feed cap recent (keys ++ [key]) = (checkAndAdd cap (feed cap recent keys) key).2 :=
  List.foldl_concat ..

/-- What is remembered is what was recorded since, newest first, and then what was
remembered before. -/
theorem feed_eq (bound : recent.length ≤ cap) (keys : List α) :
    ∃ fresh, feed cap recent keys = (fresh ++ recent).take cap ∧
    (∀ key ∈ fresh, key ∈ keys) ∧ ∀ key ∈ keys, key ∈ fresh ∨ key ∈ recent := by
  induction keys generalizing recent with
  | nil => exact ⟨[], (List.take_of_length_le bound).symm, nofun, nofun⟩
  | cons first keys ih =>
    rw [feed, List.foldl_cons, ← feed, checkAndAdd]
    split_ifs with seen
    · obtain ⟨fresh, fed, inside, covers⟩ := ih bound
      refine ⟨fresh, fed, fun key member => List.mem_cons_of_mem _ (inside key member), ?_⟩
      intro key member
      rcases List.mem_cons.mp member with rfl | later
      · exact .inr seen
      · exact covers key later
    · have shorter : ((first :: recent).take cap).length ≤ cap := List.length_take_le _ _
      obtain ⟨fresh, fed, inside, covers⟩ := ih shorter
      refine ⟨fresh ++ [first], ?_, ?_, ?_⟩
      · rw [fed, take_append_take, List.append_assoc, List.singleton_append]
      · intro key member
        rcases List.mem_append.mp member with later | last
        · exact List.mem_cons_of_mem _ (inside key later)
        · rw [List.mem_singleton.mp last]
          exact List.mem_cons_self
      · intro key member
        rcases List.mem_cons.mp member with rfl | later
        · exact .inl (List.mem_append_right _ (List.mem_singleton_self key))
        · rcases covers key later with new | old
          · exact .inl (List.mem_append_left _ new)
          · rcases List.mem_cons.mp (List.mem_of_mem_take old) with rfl | known
            · exact .inl (List.mem_append_right _ (List.mem_singleton_self key))
            · exact .inr known

/-- As many other keys as fit in it make it forget all that it remembered. -/
theorem feed_forgets (bound : recent.length ≤ cap) (apart : ∀ key ∈ recent, key ∉ keys)
    (many : cap ≤ keys.toFinset.card) (known : key ∈ recent) : key ∉ feed cap recent keys := by
  obtain ⟨fresh, fed, inside, covers⟩ := feed_eq bound keys
  have covered : keys.toFinset ⊆ fresh.toFinset := by
    intro other member
    rw [List.mem_toFinset] at member ⊢
    exact (covers other member).resolve_right fun old => apart other old member
  have full : cap ≤ fresh.length :=
    many.trans ((Finset.card_le_card covered).trans (List.toFinset_card_le fresh))
  rw [fed, List.take_append_of_le_length full]
  intro member
  exact apart key known (inside key (List.mem_of_mem_take member))

end Feed

end BoundedFifo
