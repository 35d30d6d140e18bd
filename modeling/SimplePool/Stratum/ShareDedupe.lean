import Mathlib.Data.UInt
import SimplePool.Lib.BoundedFifo
import SimplePool.Lib.LinearProbing

/-! The server-wide share dedupe table of stratum.c: a circular buffer that
decides what is forgotten, and an open-addressing index over the same keys.
The loops of the source carry an explicit fuel, and running out of it is the
result `none`, so that termination is part of what is proved. -/
namespace SimplePool.Stratum

def shareDedupeRing : Nat := 16384
def shareDedupeSlotBits : Nat := 16
def shareDedupeSlots : Nat := 2 ^ shareDedupeSlotBits

/-- The fields of `stratum_server` that `share_dedupe_lock` protects. -/
structure ShareDedupe where
  ring : Nat → UInt64
  head : Nat
  count : Nat
  index : Nat → UInt64

def ShareDedupe.empty : ShareDedupe := ⟨fun _ => 0, 0, 0, fun _ => 0⟩

def ddHome (h : UInt64) : Nat :=
  ((h * 0x9E3779B97F4A7C15) >>> (64 - shareDedupeSlotBits).toUInt64).toNat

def ddNext (i : Nat) : Nat := (i + 1) &&& (shareDedupeSlots - 1)

def ddIndexFindFrom (index : Nat → UInt64) (h : UInt64) : Nat → Nat → Option Bool
  | 0, _ => none
  | fuel + 1, i =>
    if index i = 0 then some false
    else if index i = h then some true
    else ddIndexFindFrom index h fuel (ddNext i)

def ddIndexFind (fuel : Nat) (index : Nat → UInt64) (h : UInt64) : Option Bool :=
  ddIndexFindFrom index h fuel (ddHome h)

def ddIndexInsertFrom (index : Nat → UInt64) (h : UInt64) : Nat → Nat → Option (Nat → UInt64)
  | 0, _ => none
  | fuel + 1, i =>
    if index i ≠ 0 then ddIndexInsertFrom index h fuel (ddNext i)
    else some (Function.update index i h)

def ddIndexInsert (fuel : Nat) (index : Nat → UInt64) (h : UInt64) : Option (Nat → UInt64) :=
  ddIndexInsertFrom index h fuel (ddHome h)

def ddHomeBetween (hole home j : Nat) : Bool :=
  if hole ≤ j then hole < home && home ≤ j else hole < home || home ≤ j

/-- The first loop of `dd_index_remove`: the slot of `h`, or `some none` when
the key is absent. -/
def ddIndexLocate (index : Nat → UInt64) (h : UInt64) : Nat → Nat → Option (Option Nat)
  | 0, _ => none
  | fuel + 1, i =>
    if index i = h then some (some i)
    else if index i = 0 then some none
    else ddIndexLocate index h fuel (ddNext i)

/-- The second loop of `dd_index_remove`. The hole `i` keeps its old key until
the loop overwrites it. -/
def ddIndexShift : Nat → (Nat → UInt64) → Nat → Nat → Option (Nat → UInt64)
  | 0, _, _, _ => none
  | fuel + 1, index, i, j =>
    let j := ddNext j
    let k := index j
    if k = 0 then some (Function.update index i 0)
    else if ddHomeBetween i (ddHome k) j then ddIndexShift fuel index i j
    else ddIndexShift fuel (Function.update index i k) j j

def ddIndexRemove (fuel : Nat) (index : Nat → UInt64) (h : UInt64) : Option (Nat → UInt64) := do
  match ← ddIndexLocate index h fuel (ddHome h) with
  | none => return index
  | some i => ddIndexShift fuel index i i

/-- 0 marks an empty slot of the index, so a key of 0 is stored as 1. -/
def dedupeKey (h : UInt64) : UInt64 := if h = 0 then 1 else h

def shareDedupeKeyCheckAndAdd (fuel : Nat) (s : ShareDedupe) (h : UInt64) :
    Option (Bool × ShareDedupe) := do
  let h := dedupeKey h
  if ← ddIndexFind fuel s.index h then
    return (true, s)
  let full : Bool := s.count = shareDedupeRing
  let index ← if full then ddIndexRemove fuel s.index (s.ring s.head) else pure s.index
  let index ← ddIndexInsert fuel index h
  return (false, {
    ring := Function.update s.ring s.head h
    head := (s.head + 1) % shareDedupeRing
    count := if full then s.count else s.count + 1
    index := index })

/-- A sequence of operations on one table, with the answers in order. -/
def shareDedupeRun (fuel : Nat) : ShareDedupe → List UInt64 → Option (List Bool × ShareDedupe)
  | s, [] => some ([], s)
  | s, h :: rest => do
    let (dup, s) ← shareDedupeKeyCheckAndAdd fuel s h
    let (answers, s) ← shareDedupeRun fuel s rest
    return (dup :: answers, s)

open LinearProbing

theorem ddHome_lt (h : UInt64) : ddHome h < shareDedupeSlots := by
  unfold ddHome shareDedupeSlots shareDedupeSlotBits
  rw [UInt64.toNat_shiftRight, Nat.shiftRight_eq_div_pow]
  have bound := (h * 0x9E3779B97F4A7C15).toNat_lt
  rw [Nat.div_lt_iff_lt_mul (by decide)]
  exact bound

theorem ddNext_eq (range : i < shareDedupeSlots) : ddNext i = next shareDedupeSlots i := by
  unfold ddNext shareDedupeSlots shareDedupeSlotBits at *
  rw [Nat.and_two_pow_sub_one_eq_mod]
  unfold next
  split_ifs <;> omega

theorem ddHomeBetween_iff (hi : hole < n) (hk : k < n) (hj : j < n) :
    ddHomeBetween hole k j = true ↔ 0 < gap n hole k ∧ gap n hole k ≤ gap n hole j := by
  rw [← between_iff hi hk hj]
  unfold ddHomeBetween
  split_ifs <;> simp

theorem dedupeKey_ne_zero (h : UInt64) : dedupeKey h ≠ 0 := by
  unfold dedupeKey
  split_ifs with zero
  · decide
  · exact zero

section Probes

variable {index : Nat → UInt64} {h : UInt64} {i e : Nat}

/-- An empty slot lies at or beyond every place a probe can have come to. -/
theorem gap_le_empty (passed : Passed shareDedupeSlots ddHome index h i)
    (range : e < shareDedupeSlots) (empty : index e = 0) :
    gap shareDedupeSlots (ddHome h) i ≤ gap shareDedupeSlots (ddHome h) e := by
  by_contra before
  exact (passed e range (Nat.lt_of_not_le before)).1 empty

theorem ddIndexFindFrom_spec (chained : Chained shareDedupeSlots ddHome index) (real : h ≠ 0)
    (ranged : e < shareDedupeSlots) (empty : index e = 0) (fuel : Nat) :
    i < shareDedupeSlots → Passed shareDedupeSlots ddHome index h i →
    gap shareDedupeSlots (ddHome h) e < gap shareDedupeSlots (ddHome h) i + fuel →
    ∃ found, ddIndexFindFrom index h fuel i = some found ∧
      (found = true ↔ h ∈ keys shareDedupeSlots index) := by
  induction fuel generalizing i with
  | zero =>
    intro range passed short
    have := gap_le_empty passed ranged empty
    omega
  | succ fuel ih =>
    intro range passed short
    have home := ddHome_lt h
    unfold ddIndexFindFrom
    split_ifs with blank hit
    · exact ⟨false, rfl, by simp [absent_of_empty chained range home passed blank real]⟩
    · exact ⟨true, rfl, by simp [keys, real]; exact ⟨i, range, hit⟩⟩
    · have reach := gap_le_empty passed ranged empty
      have apart : gap shareDedupeSlots (ddHome h) i ≠ gap shareDedupeSlots (ddHome h) e := by
        intro same
        exact blank (gap_inj home range ranged same ▸ empty)
      have bound := gap_lt home ranged
      rw [ddNext_eq range]
      refine ih (next_lt range) (passed_next home range passed blank hit (by omega)) ?_
      rw [gap_next home (by omega)]
      omega

theorem ddIndexInsertFrom_spec (fresh : h ∉ keys shareDedupeSlots index) (real : h ≠ 0)
    (ranged : e < shareDedupeSlots) (empty : index e = 0) (fuel : Nat) :
    i < shareDedupeSlots → Passed shareDedupeSlots ddHome index h i →
    gap shareDedupeSlots (ddHome h) e < gap shareDedupeSlots (ddHome h) i + fuel →
    ∃ slot < shareDedupeSlots,
      ddIndexInsertFrom index h fuel i = some (Function.update index slot h) ∧
      Passed shareDedupeSlots ddHome index h slot ∧ index slot = 0 := by
  induction fuel generalizing i with
  | zero =>
    intro range passed short
    have := gap_le_empty passed ranged empty
    omega
  | succ fuel ih =>
    intro range passed short
    have home := ddHome_lt h
    by_cases blank : index i = 0
    · exact ⟨i, range, by simp [ddIndexInsertFrom, blank], passed, blank⟩
    · have other : index i ≠ h := fun hit => fresh ⟨real, i, range, hit⟩
      have reach := gap_le_empty passed ranged empty
      have apart : gap shareDedupeSlots (ddHome h) i ≠ gap shareDedupeSlots (ddHome h) e := by
        intro same
        exact blank (gap_inj home range ranged same ▸ empty)
      have bound := gap_lt home ranged
      have ahead : gap shareDedupeSlots (ddHome h) (next shareDedupeSlots i) =
          gap shareDedupeSlots (ddHome h) i + 1 := gap_next home (by omega)
      simp only [ddIndexInsertFrom, blank, ne_eq, not_false_eq_true, if_true, ddNext_eq range]
      exact ih (next_lt range) (passed_next home range passed blank other (by omega)) (by omega)

theorem ddIndexLocate_spec (chained : Chained shareDedupeSlots ddHome index) (real : h ≠ 0)
    (ranged : e < shareDedupeSlots) (stored : index e = h) (fuel : Nat) :
    i < shareDedupeSlots →
    gap shareDedupeSlots (ddHome h) i ≤ gap shareDedupeSlots (ddHome h) e →
    gap shareDedupeSlots (ddHome h) e < gap shareDedupeSlots (ddHome h) i + fuel →
    ddIndexLocate index h fuel i = some (some e) := by
  induction fuel generalizing i with
  | zero =>
    intro range reach short
    omega
  | succ fuel ih =>
    intro range reach short
    have home := ddHome_lt h
    by_cases hit : index i = h
    · have here := chained.unique i range e ranged (hit ▸ real) (hit.trans stored.symm)
      subst here
      simp [ddIndexLocate, hit]
    · have apart : gap shareDedupeSlots (ddHome h) i ≠ gap shareDedupeSlots (ddHome h) e := by
        intro same
        exact hit (gap_inj home range ranged same ▸ stored)
      have occupied : index i ≠ 0 := by
        apply chained.reachable e ranged (stored ▸ real) i range
        simp only [Before, stored]
        omega
      have bound := gap_lt home ranged
      have ahead : gap shareDedupeSlots (ddHome h) (next shareDedupeSlots i) =
          gap shareDedupeSlots (ddHome h) i + 1 := gap_next home (by omega)
      simp only [ddIndexLocate, hit, occupied, if_false, ddNext_eq range]
      exact ih (next_lt range) (by omega) (by omega)

end Probes

/-- The sweep of `dd_index_remove`, from a hole `i` and the last slot `j` it
has looked at, closes the cluster and keeps every other key. -/
theorem ddIndexShift_spec (ranged : e < shareDedupeSlots) (fuel : Nat) {index : Nat → UInt64}
    {i j : Nat} :
    i < shareDedupeSlots → j < shareDedupeSlots →
    Open shareDedupeSlots ddHome (Function.update index i 0) i j →
    e ≠ i → index e = 0 →
    gap shareDedupeSlots i j < gap shareDedupeSlots i e →
    gap shareDedupeSlots i e ≤ gap shareDedupeSlots i j + fuel →
    ∃ closed, ddIndexShift fuel index i j = some closed ∧ Chained shareDedupeSlots ddHome closed ∧
      keys shareDedupeSlots closed = keys shareDedupeSlots (Function.update index i 0) := by
  induction fuel generalizing index i j with
  | zero =>
    intro hi hj opened other empty before short
    omega
  | succ fuel ih =>
    intro hi hj opened other empty before short
    have bound := gap_lt hi ranged
    have ahead : gap shareDedupeSlots i (next shareDedupeSlots j) = gap shareDedupeSlots i j + 1 :=
      gap_next hi (by omega)
    have inside := next_lt hj
    have apart : next shareDedupeSlots j ≠ i := by
      intro same
      rw [same, gap_self] at ahead
      omega
    have stay :
        Function.update index i 0 (next shareDedupeSlots j) = index (next shareDedupeSlots j) :=
      Function.update_of_ne apart ..
    simp only [ddIndexShift, ddNext_eq hj]
    by_cases blank : index (next shareDedupeSlots j) = 0
    · simp only [blank, if_true]
      exact ⟨_, rfl, opened.close hi hj ddHome_lt (by omega) (stay.trans blank), rfl⟩
    · have beyond : next shareDedupeSlots j ≠ e := fun same => blank (same ▸ empty)
      have farther : gap shareDedupeSlots i (next shareDedupeSlots j) ≠ gap shareDedupeSlots i e :=
        fun same => beyond (gap_inj hi inside ranged same)
      simp only [blank, if_false]
      have verdict := ddHomeBetween_iff hi (ddHome_lt (index (next shareDedupeSlots j))) inside
      split_ifs with behind
      · have skipped :=
          opened.skip hi hj (by omega) (ddHome_lt _) (by rw [stay]; exact verdict.mp behind)
        exact ih hi inside skipped other empty (by omega) (by omega)
      · have moved := opened.move hi hj (by omega) (ddHome_lt _)
          (by rw [stay]; exact fun h => behind (verdict.mpr h)) (by rw [stay]; exact blank)
        have same := keys_move hi apart.symm (Function.update_self i (0 : UInt64) index) inside
        rw [stay, Function.update_idem] at moved same
        have emptyStill : Function.update index i (index (next shareDedupeSlots j)) e = 0 := by
          rw [Function.update_of_ne other, empty]
        have split : gap shareDedupeSlots i e = gap shareDedupeSlots i (next shareDedupeSlots j) +
            gap shareDedupeSlots (next shareDedupeSlots j) e := by
          clear moved same stay ih
          unfold gap at *
          split_ifs at * <;> omega
        have fromSelf := gap_self shareDedupeSlots (next shareDedupeSlots j)
        obtain ⟨closed, ran, chained, kept⟩ :=
          ih inside inside moved beyond.symm emptyStill (by omega) (by omega)
        exact ⟨closed, ran, chained, kept.trans same⟩

section Operations

variable {index : Nat → UInt64} {h : UInt64} {recent : List UInt64} {fuel : Nat}

/-- The index stores exactly the keys of `recent`, each within reach. -/
structure Indexes (index : Nat → UInt64) (recent : List UInt64) : Prop where
  chained : Chained shareDedupeSlots ddHome index
  keys_eq : keys shareDedupeSlots index = {key | key ∈ recent}
  room : recent.length ≤ shareDedupeRing

theorem Indexes.exists_empty (indexes : Indexes index recent) :
    ∃ e < shareDedupeSlots, index e = 0 := by
  refine LinearProbing.exists_empty indexes.chained indexes.keys_eq.le ?_
  exact lt_of_le_of_lt indexes.room (by decide)

theorem ddIndexFind_spec (indexes : Indexes index recent) (real : h ≠ 0)
    (enough : shareDedupeSlots ≤ fuel) : ddIndexFind fuel index h = some (decide (h ∈ recent)) := by
  obtain ⟨e, ranged, empty⟩ := indexes.exists_empty
  have bound := gap_lt (ddHome_lt h) ranged
  obtain ⟨found, ran, meaning⟩ := ddIndexFindFrom_spec indexes.chained real ranged empty fuel
    (ddHome_lt h) (passed_home h) (by omega)
  rw [indexes.keys_eq, Set.mem_ofPred_eq] at meaning
  rw [ddIndexFind, ran]
  congr 1
  rw [Bool.eq_iff_iff, meaning, decide_eq_true_iff]

theorem ddIndexRemove_spec (indexes : Indexes index recent) (member : h ∈ recent)
    (enough : shareDedupeSlots ≤ fuel) : ∃ rest, ddIndexRemove fuel index h = some rest ∧
      Chained shareDedupeSlots ddHome rest ∧
      keys shareDedupeSlots rest = {key | key ∈ recent ∧ key ≠ h} := by
  have stored : h ∈ keys shareDedupeSlots index := indexes.keys_eq ▸ member
  obtain ⟨real, slot, range, value⟩ := stored
  obtain ⟨e, ranged, empty⟩ := indexes.exists_empty
  have bound := gap_lt (ddHome_lt h) range
  have located := ddIndexLocate_spec indexes.chained real range value fuel (i := ddHome h)
    (ddHome_lt h) (by rw [gap_self]; omega) (by omega)
  have other : e ≠ slot := by
    rintro rfl
    exact real (value.symm.trans empty)
  have apart : 0 < gap shareDedupeSlots slot e :=
    Nat.pos_of_ne_zero (fun zero => other (gap_eq_zero range zero))
  have far := gap_lt range ranged
  obtain ⟨rest, ran, chained, kept⟩ := ddIndexShift_spec ranged fuel range range
    (opened indexes.chained range) other empty (by rw [gap_self]; exact apart)
      (by rw [gap_self]; omega)
  refine ⟨rest, ?_, chained, ?_⟩
  · simp only [ddIndexRemove, located, Option.bind_eq_bind, Option.bind_some, ran]
  · rw [kept, keys_blank indexes.chained range (value ▸ real), indexes.keys_eq, value]
    rfl

theorem ddIndexInsert_spec (chained : Chained shareDedupeSlots ddHome index) (real : h ≠ 0)
    (stored : keys shareDedupeSlots index = {key | key ∈ recent})
    (room : recent.length < shareDedupeSlots)
    (fresh : h ∉ recent) (enough : shareDedupeSlots ≤ fuel) :
    ∃ filled, ddIndexInsert fuel index h = some filled ∧ Chained shareDedupeSlots ddHome filled ∧
      keys shareDedupeSlots filled = {key | key = h ∨ key ∈ recent} := by
  obtain ⟨e, ranged, empty⟩ := LinearProbing.exists_empty chained stored.le room
  have bound := gap_lt (ddHome_lt h) ranged
  have absent : h ∉ keys shareDedupeSlots index := stored ▸ fresh
  obtain ⟨slot, range, ran, passed, blank⟩ := ddIndexInsertFrom_spec absent real ranged empty fuel
    (ddHome_lt h) (passed_home h) (by omega)
  refine ⟨_, ran, LinearProbing.insert chained range passed blank absent real, ?_⟩
  rw [keys_insert range blank real, stored]
  rfl

end Operations

/-- The table represents the list of remembered keys, newest first. -/
structure ShareDedupe.Represents (s : ShareDedupe) (recent : List UInt64) : Prop where
  distinct : recent.Nodup
  ring : BoundedFifo.Holds shareDedupeRing s.ring s.head s.count recent
  index : Indexes s.index recent

theorem ShareDedupe.empty_represents : ShareDedupe.empty.Represents [] := by
  refine ⟨List.nodup_nil, BoundedFifo.holds_empty (by decide) _, ⟨⟨?_, ?_⟩, ?_, by simp⟩⟩
  · intro s _ stored
    exact absurd rfl stored
  · intro s _ s' _ stored
    exact absurd rfl stored
  · ext key
    simp only [keys, ShareDedupe.empty, Set.mem_ofPred_eq, List.not_mem_nil, iff_false]
    rintro ⟨real, _, _, same⟩
    exact real same.symm

/-- One operation answers as the bounded set does and keeps representing it. -/
theorem checkAndAdd_refines (represents : ShareDedupe.Represents s recent) (h : UInt64)
    (enough : shareDedupeSlots ≤ fuel) :
    ∃ s', shareDedupeKeyCheckAndAdd fuel s h =
        some ((BoundedFifo.checkAndAdd shareDedupeRing recent (dedupeKey h)).1, s') ∧
      s'.Represents (BoundedFifo.checkAndAdd shareDedupeRing recent (dedupeKey h)).2 := by
  have real := dedupeKey_ne_zero h
  have answer := ddIndexFind_spec represents.index real enough
  unfold shareDedupeKeyCheckAndAdd BoundedFifo.checkAndAdd
  generalize dedupeKey h = key at *
  simp only [answer, Option.bind_eq_bind, Option.bind_some]
  by_cases seen : key ∈ recent
  · exact ⟨s, by simp [seen], by simpa [seen] using represents⟩
  · simp only [seen, decide_false, Bool.false_eq_true, if_false]
    have lengthEq := represents.ring.length_eq
    have headNext : (s.head + 1) % shareDedupeRing =
        if s.head + 1 = shareDedupeRing then 0 else s.head + 1 := by
      have := represents.ring.head_lt
      unfold shareDedupeRing at *
      split_ifs <;> omega
    have ring := represents.ring.record key
    have remembered :=
      BoundedFifo.mem_record (by decide) represents.distinct represents.index.room key
    by_cases full : s.count = shareDedupeRing
    · -- the ring is full: its oldest key leaves the index before the new one enters
      have oldest := represents.ring.oldest full
      have member : s.ring s.head ∈ recent := List.mem_of_getElem? oldest
      obtain ⟨rest, removed, chained, kept⟩ := ddIndexRemove_spec represents.index member enough
      have stored : keys shareDedupeSlots rest = {k | k ∈ recent.erase (s.ring s.head)} := by
        rw [kept]
        ext other
        simp only [Set.mem_ofPred_eq, represents.distinct.mem_erase_iff, and_comm]
      obtain ⟨filled, inserted, chained, final⟩ := ddIndexInsert_spec chained real stored
        (by rw [List.length_erase_of_mem member, lengthEq, full]; decide)
        (fun inside => seen (List.mem_of_mem_erase inside)) enough
      refine ⟨_, by simp only [full, decide_true, if_true, removed, Option.bind_some,
          inserted]; rfl, ?_⟩
      refine ⟨BoundedFifo.nodup_record represents.distinct seen, ?_, ⟨chained, ?_, ?_⟩⟩
      · simpa only [headNext, full, if_true] using ring
      · rw [final]
        ext other
        simp only [Set.mem_ofPred_eq, represents.distinct.mem_erase_iff, remembered other, oldest,
          ne_eq, Option.some.injEq, and_comm, eq_comm]
      · rw [List.length_take]
        omega
    · have lastless : recent[shareDedupeRing - 1]? = none := by
        have := represents.ring.bound
        exact List.getElem?_eq_none (by omega)
      obtain ⟨filled, inserted, chained, final⟩ := ddIndexInsert_spec represents.index.chained real
        represents.index.keys_eq (lt_of_le_of_lt represents.index.room (by decide)) seen enough
      refine ⟨_, by simp only [full, decide_false, Bool.false_eq_true, if_false, pure,
        Option.bind_some, inserted]; rfl, ?_⟩
      refine ⟨BoundedFifo.nodup_record represents.distinct seen, ?_, ⟨chained, ?_, ?_⟩⟩
      · simpa only [headNext, full, if_false] using ring
      · rw [final]
        ext other
        simp only [Set.mem_ofPred_eq, remembered other, lastless, ne_eq, reduceCtorEq,
          not_false_eq_true, and_true]
      · rw [List.length_take]
        omega

/-- What the table is for: the same sequence of operations on the bounded set. -/
def fifoRun : List UInt64 → List UInt64 → List Bool × List UInt64
  | recent, [] => ([], recent)
  | recent, key :: rest =>
    let (dup, recent) := BoundedFifo.checkAndAdd shareDedupeRing recent key
    let (answers, recent) := fifoRun recent rest
    (dup :: answers, recent)

theorem run_refines (represents : ShareDedupe.Represents s recent)
    (enough : shareDedupeSlots ≤ fuel) (hs : List UInt64) :
    ∃ s', shareDedupeRun fuel s hs = some ((fifoRun recent (hs.map dedupeKey)).1, s') ∧
      s'.Represents (fifoRun recent (hs.map dedupeKey)).2 := by
  induction hs generalizing s recent with
  | nil => exact ⟨s, rfl, represents⟩
  | cons h rest ih =>
    obtain ⟨middle, stepped, represents⟩ := checkAndAdd_refines represents h enough
    obtain ⟨last, ran, represents⟩ := ih represents
    refine ⟨last, ?_, represents⟩
    simp only [shareDedupeRun, stepped, Option.bind_eq_bind, Option.bind_some, ran]
    rfl

/-- From the empty table every sequence of keys gets the answers of the bounded
FIFO set, every probe ends within one turn of the index, and after the last
operation (hence after each one) ring and index hold the same keys, those of the
set, with none cut off from its home slot. -/
theorem shareDedupe_refines_fifo (fuel : Nat) (enough : shareDedupeSlots ≤ fuel)
    (hs : List UInt64) :
    ∃ s, shareDedupeRun fuel ShareDedupe.empty hs = some ((fifoRun [] (hs.map dedupeKey)).1, s) ∧
      (fifoRun [] (hs.map dedupeKey)).2.Nodup ∧
      (∀ key, key ∈ keys shareDedupeSlots s.index ↔ ∃ i < s.count, s.ring i = key) ∧
      (∀ key, key ∈ keys shareDedupeSlots s.index ↔ key ∈ (fifoRun [] (hs.map dedupeKey)).2) ∧
      Chained shareDedupeSlots ddHome s.index := by
  obtain ⟨s, ran, represents⟩ := run_refines ShareDedupe.empty_represents enough hs
  have stored : ∀ key, key ∈ keys shareDedupeSlots s.index ↔
      key ∈ (fifoRun [] (hs.map dedupeKey)).2 := by
    intro key
    rw [represents.index.keys_eq, Set.mem_ofPred_eq]
  refine ⟨s, ran, represents.distinct, ?_, stored, represents.index.chained⟩
  intro key
  rw [stored, represents.ring.mem_iff]

/-- The key 0 is recorded as 1, so a later 1 is its duplicate. -/
theorem shareDedupe_zero_aliases_one :
    ∃ s, shareDedupeRun shareDedupeSlots ShareDedupe.empty [0, 7, 1] =
      some ([false, false, true], s) := by
  obtain ⟨s, ran, _⟩ := shareDedupe_refines_fifo shareDedupeSlots le_rfl [0, 7, 1]
  exact ⟨s, ran⟩

/-- The keys a table remembers, newest first. -/
def ShareDedupe.recent (s : ShareDedupe) : List UInt64 :=
  (List.range s.count).map fun j => s.ring (BoundedFifo.slot shareDedupeRing s.head j)

theorem ShareDedupe.Represents.recent_eq (represents : ShareDedupe.Represents s held) :
    s.recent = held := by
  apply List.ext_getElem
  · rw [ShareDedupe.recent, List.length_map, List.length_range, represents.ring.length_eq]
  · intro j _ inside
    simp only [ShareDedupe.recent, List.getElem_map, List.getElem_range]
    exact represents.ring.entry j inside

/-- A table the operations can reach. -/
structure DedupeTable where
  table : ShareDedupe
  valid : table.Represents table.recent

def DedupeTable.empty : DedupeTable where
  table := ShareDedupe.empty
  valid := ShareDedupe.empty_represents

def DedupeTable.recent (t : DedupeTable) : List UInt64 := t.table.recent

theorem DedupeTable.checkAndAdd_isSome (t : DedupeTable) (h : UInt64) :
    (shareDedupeKeyCheckAndAdd shareDedupeSlots t.table h).isSome := by
  obtain ⟨s, stepped, _⟩ := checkAndAdd_refines t.valid h le_rfl
  rw [stepped]
  rfl

/-- On such a table one turn of the index is fuel enough. -/
def DedupeTable.checkAndAdd (t : DedupeTable) (h : UInt64) : Bool × DedupeTable :=
  let done := (shareDedupeKeyCheckAndAdd shareDedupeSlots t.table h).get (t.checkAndAdd_isSome h)
  (done.1, {
    table := done.2
    valid := by
      obtain ⟨s, stepped, represents⟩ := checkAndAdd_refines t.valid h le_rfl
      have same : done.2 = s := by simp only [done, stepped, Option.get_some]
      rw [same, represents.recent_eq]
      exact represents })

/-- The table is the bounded set of the keys it remembers. -/
theorem DedupeTable.checkAndAdd_spec (t : DedupeTable) (h : UInt64) :
    ((t.checkAndAdd h).1, (t.checkAndAdd h).2.recent) =
      BoundedFifo.checkAndAdd shareDedupeRing t.recent (dedupeKey h) := by
  obtain ⟨s, stepped, represents⟩ := checkAndAdd_refines t.valid h le_rfl
  simp only [DedupeTable.checkAndAdd, DedupeTable.recent, stepped, Option.get_some,
    represents.recent_eq]

end SimplePool.Stratum
