import Mathlib.Data.List.Sort
import SimplePool.Coinbase.Window

/-! The order in which a window is paid: a minority of the slots for those who have waited
longest, and the rest by size. -/
namespace SimplePool.Pplns
open Coinbase

variable {α : Type} [LinearOrder α]

/-- `rank_t`, on keys that can all be compared. -/
structure Rank (α : Type) where
  idx : Nat
  key : α
deriving DecidableEq

/-- `rank_desc`, with ties by position. -/
def Rank.before (x y : Rank α) : Prop := y.key < x.key ∨ x.key = y.key ∧ x.idx ≤ y.idx

instance (x y : Rank α) : Decidable (x.before y) := inferInstanceAs (Decidable (_ ∨ _))

def ranked (keys : List α) : List (Rank α) :=
  (keys.zipIdx.map fun (key, idx) => (⟨idx, key⟩ : Rank α)).insertionSort Rank.before

def reservedSlots (slots : Nat) : Nat :=
  let reserved := slots * 1 / 4
  if slots ≤ reserved ∧ 0 < slots then slots - 1 else reserved

/-- Without amounts every claim can be paid. -/
def floorDrops (floor : Int) (amounts : Option (List Payee)) (i : Nat) : Bool :=
  match amounts with
  | none => false
  | some amounts => (amounts[i]?.map Payee.sats).getD 0 < floor

section
variable [Zero α]

/-- The loop over the longest waiting. A claim that the floor will drop is passed over. -/
def reserveLoop (reserved : Nat) (floor : Int) (amounts : Option (List Payee)) :
    List (Rank α) → List Nat → List Nat
  | [], order => order
  | rank :: rest, order =>
    if reserved ≤ order.length ∨ rank.key ≤ 0 then order
    else if floorDrops floor amounts rank.idx then reserveLoop reserved floor amounts rest order
    else reserveLoop reserved floor amounts rest (order ++ [rank.idx])

/-- `pplns_order_claims`, on the difficulties and the owed fractions of the claims. -/
def orderClaims (difficulties owed : List α) (expectedSlots : Nat) (amounts : Option (List Payee))
    (payoutFloorSats : Int) :
    Option (List Nat) :=
  let n := difficulties.length
  if n = 0 then none
  else
    let slots := if n < expectedSlots then n else expectedSlots
    let first :=
      reserveLoop (reservedSlots slots) (effectiveFloor payoutFloorSats) amounts (ranked owed) []
    let order := first ++ ((ranked difficulties).map Rank.idx).filter fun i => i ∉ first
    if order.length = n then some order else none

end

theorem ranked_idx_perm (keys : List α) :
    ((ranked keys).map Rank.idx).Perm (List.range keys.length) := by
  have sorted := (List.perm_insertionSort Rank.before (keys.zipIdx.map fun (key, idx) =>
      (⟨idx, key⟩ : Rank α))).map Rank.idx
  have positions : (keys.zipIdx.map fun (key, idx) => (⟨idx, key⟩ : Rank α)).map Rank.idx =
        List.range keys.length := by
    rw [List.map_map]
    change keys.zipIdx.map Prod.snd = _
    rw [List.zipIdx_map_snd, List.range_eq_range']
  rw [positions] at sorted
  exact sorted

theorem ranked_idx_nodup (keys : List α) : ((ranked keys).map Rank.idx).Nodup :=
  (ranked_idx_perm keys).nodup_iff.mpr List.nodup_range

theorem mem_ranked {keys : List α} {rank : Rank α} :
    rank ∈ ranked keys ↔ keys[rank.idx]? = some rank.key := by
  rw [ranked, List.mem_insertionSort, List.mem_map]
  constructor
  · rintro ⟨⟨key, idx⟩, member, rfl⟩
    exact List.mem_zipIdx_iff_getElem?.mp member
  · exact fun found => ⟨(rank.key, rank.idx), List.mem_zipIdx_iff_getElem?.mpr found, rfl⟩

instance : Std.Total (Rank.before (α := α)) where
  total x y := by
    rcases lt_trichotomy x.key y.key with less | same | more
    · exact .inr (.inl less)
    · exact (le_total x.idx y.idx).imp (fun early => .inr ⟨same, early⟩) fun late =>
        .inr ⟨same.symm, late⟩
    · exact .inl (.inl more)

instance : IsTrans (Rank α) Rank.before where
  trans x y z := by
    rintro (first | ⟨first, early⟩) (second | ⟨second, late⟩)
    · exact .inl (second.trans first)
    · exact .inl (second ▸ first)
    · exact .inl (first ▸ second)
    · exact .inr ⟨first.trans second, early.trans late⟩

theorem ranked_pairwise (keys : List α) : (ranked keys).Pairwise Rank.before :=
  List.pairwise_insertionSort _ _

/-- The larger key first, and of equal keys the earlier position. -/
def Precedes (keys : List α) (i j : Nat) : Prop :=
  ∃ x ∈ keys[i]?, ∃ y ∈ keys[j]?, y < x ∨ x = y ∧ i < j

theorem ranked_precedes (keys : List α) :
    ((ranked keys).map Rank.idx).Pairwise (Precedes keys) := by
  have apart := List.pairwise_map.mp (ranked_idx_nodup keys)
  refine List.pairwise_map.mpr (((ranked_pairwise keys).and apart).imp_of_mem ?_)
  rintro x y left right ⟨before, other⟩
  refine ⟨x.key, mem_ranked.mp left, y.key, mem_ranked.mp right,
    before.imp_right fun ⟨same, early⟩ => ?_⟩
  exact ⟨same, lt_of_le_of_ne early other⟩

/-- What is left of a sorted list comes after what was taken. -/
theorem pairwise_taken {r : β → β → Prop} {items : List β} (sorted : items.Pairwise r)
    (early : x ∈ items.take k) (member : y ∈ items) (left : y ∉ items.take k) : r x y := by
  rw [← List.take_append_drop k items] at sorted member
  exact (List.pairwise_append.mp sorted).2.2 x early y
    ((List.mem_append.mp member).resolve_left left)

/-- The reserved places and the rest are all the claims. -/
theorem order_perm {difficulties owed : List α} (same : owed.length = difficulties.length)
    (sub : first.Sublist ((ranked owed).map Rank.idx)) :
    (first ++ ((ranked difficulties).map Rank.idx).filter fun i => i ∉ first).Perm
      (List.range difficulties.length) := by
  have waiting := ranked_idx_perm owed
  have sizes := ranked_idx_perm difficulties
  rw [same] at waiting
  have once : first.Nodup := (ranked_idx_nodup owed).sublist sub
  refine (List.perm_ext_iff_of_nodup ?_ List.nodup_range).mpr fun i => ?_
  · refine List.nodup_append'.mpr ⟨once, (ranked_idx_nodup difficulties).filter _,
      fun i early late => ?_⟩
    exact absurd early (of_decide_eq_true (List.mem_filter.mp late).2)
  · rw [List.mem_append, List.mem_filter, sizes.mem_iff, decide_eq_true_eq]
    constructor
    · rintro (early | late)
      · exact waiting.mem_iff.mp (sub.subset early)
      · exact late.1
    · intro inside
      by_cases early : i ∈ first
      · exact .inl early
      · exact .inr ⟨inside, early⟩

section
variable [Zero α] {difficulties owed : List α} {amounts : Option (List Payee)} {floor : Int}

theorem reserveLoop_sublist (ranks : List (Rank α)) (order : List Nat) :
    ∃ more, reserveLoop reserved floor amounts ranks order = order ++ more ∧
    more.Sublist (ranks.map Rank.idx) := by
  induction ranks generalizing order with
  | nil => exact ⟨[], (List.append_nil order).symm, .slnil⟩
  | cons rank rest ih =>
    rw [reserveLoop]
    split
    next => exact ⟨[], (List.append_nil order).symm, List.nil_sublist _⟩
    next =>
      split
      next =>
        obtain ⟨more, same, sub⟩ := ih order
        exact ⟨more, same, sub.cons rank.idx⟩
      next =>
        obtain ⟨more, same, sub⟩ := ih (order ++ [rank.idx])
        exact ⟨rank.idx :: more, by rw [same, List.append_assoc,
            List.singleton_append], sub.cons_cons rank.idx⟩

theorem orderClaims_perm (same : owed.length = difficulties.length)
    (ordered : orderClaims difficulties owed slots amounts floor = some order) :
    order.Perm (List.range difficulties.length) := by
  rw [orderClaims] at ordered
  split at ordered
  next => cases ordered
  next =>
    dsimp only at ordered
    generalize reservedSlots (if difficulties.length < slots then difficulties.length else slots) =
        reserved at ordered
    split at ordered
    next =>
      obtain rfl := Option.some.inj ordered
      obtain ⟨first, begun, sub⟩ := reserveLoop_sublist (ranked owed) []
      rw [begun, List.nil_append]
      exact order_perm same sub
    next => cases ordered

/-- Owed something, and not dropped by the floor. -/
def Eligible (owed : List α) (floor : Int) (amounts : Option (List Payee)) (i : Nat) : Prop :=
  (∃ x ∈ owed[i]?, 0 < x) ∧ floorDrops floor amounts i = false

instance (i : Nat) : Decidable (Eligible owed floor amounts i) :=
  inferInstanceAs (Decidable (_ ∧ _))

/-- The eligible claims, the longest waiting first. -/
def queue (owed : List α) (floor : Int) (amounts : Option (List Payee)) : List Nat :=
  ((ranked owed).map Rank.idx).filter fun i => Eligible owed floor amounts i

theorem queue_precedes (owed : List α) : (queue owed floor amounts).Pairwise (Precedes owed) :=
  (ranked_precedes owed).filter _

theorem mem_queue : i ∈ queue owed floor amounts ↔ Eligible owed floor amounts i := by
  rw [queue, List.mem_filter, decide_eq_true_eq, (ranked_idx_perm owed).mem_iff, List.mem_range]
  refine ⟨And.right, fun eligible => ⟨?_, eligible⟩⟩
  obtain ⟨⟨x, found, _⟩, _⟩ := eligible
  exact (List.getElem?_eq_some_iff.mp found).1

theorem queue_length : (queue owed floor amounts).length =
      (List.range owed.length).countP (Eligible owed floor amounts ·) := by
  rw [queue, ← List.countP_eq_length_filter]
  exact (ranked_idx_perm owed).countP_eq _

/-- The loop takes from the front of the queue: behind the first that is owed nothing, nobody
is owed anything. -/
theorem reserveLoop_eq (ranks : List (Rank α)) (sorted : ranks.Pairwise Rank.before)
    (known : ∀ rank ∈ ranks, owed[rank.idx]? = some rank.key) (order : List Nat) :
    reserveLoop reserved floor amounts ranks order =
      order ++ ((ranks.map Rank.idx).filter fun i => Eligible owed floor amounts i).take
        (reserved - order.length) := by
  induction ranks generalizing order with
  | nil => rw [reserveLoop, List.map_nil, List.filter_nil, List.take_nil, List.append_nil]
  | cons rank rest ih =>
    obtain ⟨first, sorted⟩ := List.pairwise_cons.mp sorted
    obtain ⟨found, known⟩ := List.forall_mem_cons.mp known
    have eligible : Eligible owed floor amounts rank.idx ↔ 0 < rank.key ∧
        floorDrops floor amounts rank.idx = false := by
      rw [Eligible, found]
      exact and_congr_left fun _ => ⟨fun ⟨x, same, positive⟩ => Option.some.inj same ▸ positive,
        fun positive => ⟨_, rfl, positive⟩⟩
    rw [reserveLoop, List.map_cons]
    by_cases full : reserved ≤ order.length
    · rw [if_pos (.inl full), Nat.sub_eq_zero_of_le full, List.take_zero, List.append_nil]
    · by_cases owing : 0 < rank.key
      · rw [if_neg (not_or.mpr ⟨full, not_le.mpr owing⟩)]
        cases drops : floorDrops floor amounts rank.idx with
        | true =>
          rw [if_pos rfl, List.filter_cons_of_neg (by simp [eligible, drops])]
          exact ih sorted known order
        | false =>
          rw [if_neg (by decide), List.filter_cons_of_pos (by simp [eligible, drops, owing]),
            ih sorted known,
            List.length_append, List.length_singleton, List.append_assoc, List.singleton_append]
          obtain ⟨more, room⟩ := Nat.exists_eq_add_of_lt (not_le.mp full)
          rw [show reserved - (order.length + 1) =
            more by omega, show reserved - order.length = more + 1 by omega,
            List.take_succ_cons]
      · have nobody : (rank.idx :: rest.map Rank.idx).filter
            (fun i => Eligible owed floor amounts i) = [] := by
          refine List.filter_eq_nil_iff.mpr fun i member => ?_
          rw [decide_eq_true_eq]
          rintro ⟨⟨x, held, positive⟩, _⟩
          rw [← List.map_cons] at member
          obtain ⟨other, later, rfl⟩ := List.mem_map.mp member
          have least : other.key ≤ rank.key := by
            rcases List.mem_cons.mp later with rfl | later
            · exact le_rfl
            · rcases first other later with less | ⟨same, _⟩
              · exact less.le
              · exact same.ge
          rw [(List.forall_mem_cons.mpr ⟨found, known⟩ : ∀ r ∈ rank :: rest, _) other later] at held
          obtain rfl := Option.some.inj held
          exact owing (positive.trans_le least)
        rw [if_pos (.inr (not_lt.mp owing)), nobody, List.take_nil, List.append_nil]

theorem reserveLoop_queue : reserveLoop reserved floor amounts (ranked owed) [] =
      (queue owed floor amounts).take reserved := by
  rw [reserveLoop_eq (ranked owed) (ranked_pairwise owed) fun _ => mem_ranked.mp]
  rfl

/-- The first `m` are the longest waiting of those who are eligible, and the others come by size. -/
structure PaymentOrder (difficulties owed : List α) (eligible : Nat → Prop) (m : Nat)
    (order : List Nat) : Prop where
  perm : order.Perm (List.range difficulties.length)
  entitled : ∀ i ∈ order.take m, eligible i
  longest : ∀ i ∈ order.take m, ∀ j, eligible j → j ∉ order.take m → Precedes owed i j
  waiting : (order.take m).Pairwise (Precedes owed)
  size : (order.drop m).Pairwise (Precedes difficulties)

theorem reservedSlots_eq (slots : Nat) :
    reservedSlots slots = slots * 1 / 4 ∧ (0 < slots → reservedSlots slots < slots) := by
  rw [reservedSlots]
  split_ifs <;> omega

theorem paymentOrder (claims : List (α × α)) (expectedSlots : Nat) (amounts : Option (List Payee))
    (payoutFloorSats : Int) (someone : claims ≠ []) :
    let reserved := reservedSlots (min expectedSlots claims.length)
    let eligible := Eligible (claims.map Prod.snd) (effectiveFloor payoutFloorSats) amounts
    reserved = min expectedSlots claims.length * 1 / 4 ∧
    (0 < expectedSlots → reserved < min expectedSlots claims.length) ∧
      ∃ order, orderClaims (claims.map Prod.fst) (claims.map Prod.snd) expectedSlots amounts
        payoutFloorSats = some order ∧
        PaymentOrder (claims.map Prod.fst) (claims.map Prod.snd) eligible
          (min reserved ((List.range claims.length).countP fun i => eligible i)) order := by
  intro reserved eligible
  have count : 0 < claims.length := List.length_pos_iff.mpr someone
  obtain ⟨fraction, minority⟩ := reservedSlots_eq (min expectedSlots claims.length)
  refine ⟨fraction, fun positive => minority (by omega), ?_⟩
  have same : (claims.map Prod.snd).length = (claims.map Prod.fst).length := by
    rw [List.length_map, List.length_map]
  have slots : (if claims.length < expectedSlots then claims.length else expectedSlots) =
        min expectedSlots claims.length := by
    split_ifs <;> omega
  have sub :
    ((queue (claims.map Prod.snd) (effectiveFloor payoutFloorSats) amounts).take reserved).Sublist
      ((ranked (claims.map Prod.snd)).map Rank.idx) :=
        (List.take_sublist _ _).trans List.filter_sublist
  have perm := order_perm same sub
  have taken :
    ((queue (claims.map Prod.snd) (effectiveFloor payoutFloorSats) amounts).take reserved).length =
      min reserved ((List.range claims.length).countP fun i => eligible i) := by
    rw [List.length_take, queue_length, List.length_map]
  refine ⟨_, ?_, perm, ?_, ?_, ?_, ?_⟩
  · have all := perm.length_eq
    rw [List.length_range, List.length_map] at all
    rw [orderClaims, List.length_map, if_neg count.ne', slots]
    dsimp only
    rw [reserveLoop_queue]
    exact if_pos all
  · rw [← taken, List.take_left]
    exact fun i early => mem_queue.mp (List.mem_of_mem_take early)
  · rw [← taken, List.take_left]
    exact fun i early j late left =>
      pairwise_taken (queue_precedes _) early (mem_queue.mpr late) left
  · rw [← taken, List.take_left]
    exact (queue_precedes _).sublist (List.take_sublist _ _)
  · rw [← taken, List.drop_left]
    exact (ranked_precedes _).filter _

/-- Of eight slots two are reserved. The claim that has waited longest is below the floor, and
the next two are paid first. -/
theorem paymentOrder_passed_over :
    let amounts := some ([9, 9, 9, 9, 9, 9, 0, 9].map fun k => (⟨none, k * 100⟩ : Payee))
    orderClaims ([8, 7, 6, 5, 4, 3, 2, 1] : List ℤ) [0, 0, 0, 0, 0, 1, 3, 2] 8 amounts 0 =
      some [7, 5, 0, 1, 2, 3, 4, 6] ∧ ([7, 5, 0, 1, 2, 3, 4, 6].take 2).Pairwise
        (Precedes ([0, 0, 0, 0, 0, 1, 3, 2] : List ℤ)) := by
  intro amounts
  have ordered :
    orderClaims ([8, 7, 6, 5, 4, 3, 2, 1] : List ℤ) [0, 0, 0, 0, 0, 1, 3, 2] 8 amounts 0 =
      some [7, 5, 0, 1, 2, 3, 4, 6] := by decide +kernel
  obtain ⟨_, _, order, found, sound⟩ := paymentOrder
    ([(8, 0), (7, 0), (6, 0), (5, 0), (4, 0), (3, 1), (2, 3), (1, 2)] : List (ℤ × ℤ)) 8 amounts 0
      (by decide)
  obtain rfl := Option.some.inj (found.symm.trans ordered)
  exact ⟨ordered, sound.waiting⟩

end

end SimplePool.Pplns
