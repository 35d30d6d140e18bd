import Mathlib.Algebra.BigOperators.Group.List.Basic
import Mathlib.Data.List.Nodup
import Mathlib.Tactic.SplitIfs

/-! A table with a key, as the list of its rows, and the statement that inserts a row or
updates the one that is there. -/
namespace KeyedTable

variable {α κ M : Type} [DecidableEq κ] [AddCommMonoid M] {key : α → κ} {merge : α → α → α}
  {row : α} {rows : List α}

/-- `INSERT ... ON CONFLICT DO UPDATE`. -/
def upsert (key : α → κ) (merge : α → α → α) (row : α) (rows : List α) : List α :=
  if rows.any fun old => key old = key row then rows.map fun old => if key old = key row then
    merge old row
  else old
  else rows ++ [row]

theorem map_key_update (kept : ∀ old, key (merge old row) = key old) :
    (rows.map fun old => if key old = key row then merge old row else old).map key =
      rows.map key := by
  rw [List.map_map]
  congr 1
  funext old
  dsimp only [Function.comp]
  split_ifs
  · exact kept old
  · rfl

/-- The key stays a key. -/
theorem upsert_keyed (kept : ∀ old, key (merge old row) = key old) (keyed : (rows.map key).Nodup) :
    ((upsert key merge row rows).map key).Nodup := by
  rw [upsert]
  split_ifs with known
  · rwa [map_key_update kept]
  · rw [List.map_append, List.map_singleton, List.nodup_append]
    refine ⟨keyed, List.nodup_singleton _, ?_⟩
    intro k member other new same
    obtain ⟨old, inside, rfl⟩ := List.mem_map.mp member
    obtain rfl := List.mem_singleton.mp new
    exact known (List.any_eq_true.mpr ⟨old, inside, decide_eq_true same⟩)

theorem find_of_mem (keyed : (rows.map key).Nodup) (member : row ∈ rows) :
    (rows.find? fun old => key old = key row) = some row := by
  induction rows with
  | nil => contradiction
  | cons old rest ih =>
    obtain ⟨apart, keyed⟩ := List.nodup_cons.mp keyed
    rcases List.mem_cons.mp member with rfl | later
    · exact List.find?_cons_of_pos (decide_eq_true rfl)
    · have other : key old ≠ key row := fun same => apart (same ▸ List.mem_map_of_mem later)
      rw [List.find?_cons_of_neg (by simpa using other)]
      exact ih keyed later

/-- `UPDATE ... WHERE key = ?`. -/
theorem find_update {write : α → α} (kept : ∀ old, key (write old) = key old) (k chosen : κ) :
    (rows.map fun old => if key old = chosen then write old else old).find?
      (fun old => key old = k) =
      (rows.find? fun old => key old = k).map fun old => if k = chosen then write old else old := by
  induction rows with
  | nil => rfl
  | cons old rest ih =>
    have same : key (if key old = chosen then write old else old) = key old := by
      split_ifs
      · exact kept old
      · rfl
    rw [List.map_cons, List.find?_cons, List.find?_cons, same, ih]
    by_cases here : key old = k
    · simp [here]
    · simp [here]

/-- The key of the row finds what the statement leaves there, and every other key what it
found. -/
theorem find_upsert (kept : ∀ old, key (merge old row) = key old) (k : κ) :
    (upsert key merge row rows).find? (fun old => key old = k) =
      if k = key row then
        some (((rows.find? fun old => key old = k).map fun old => merge old row).getD row)
      else rows.find? fun old => key old = k := by
  rw [upsert]
  split_ifs with found mine mine
  · rw [find_update fun old => kept old]
    have present : (rows.find? fun old => key old = k).isSome := by
      rw [List.find?_isSome, mine]
      exact List.any_eq_true.mp found
    obtain ⟨old, held⟩ := Option.isSome_iff_exists.mp present
    rw [held, Option.map_some, if_pos mine]
    rfl
  · rw [find_update fun old => kept old]
    simp [mine]
  · have absent : (rows.find? fun old => key old = k) = none := by
      rw [List.find?_eq_none, mine]
      exact fun old member same => found (List.any_eq_true.mpr ⟨old, member, same⟩)
    rw [List.find?_append, absent]
    simp [mine]
  · rw [List.find?_append]
    simp [Ne.symm mine]

theorem lookup_eq_find {β : Type} (rows : List (κ × β)) (k : κ) :
    rows.lookup k = (rows.find? fun old => old.1 = k).map Prod.snd := by
  induction rows with
  | nil => rfl
  | cons old rest ih =>
    rw [List.lookup_cons, List.find?_cons, ih]
    by_cases here : old.1 = k
    · simp [here]
    · simp [here, beq_eq_false_iff_ne.mpr (Ne.symm here)]

theorem update_of_absent (merge : α → α → α) (absent : key row ∉ rows.map key) :
    (rows.map fun old => if key old = key row then merge old row else old) = rows ∧
      rows.filter (fun old => key old ≠ key row) = rows := by
  have apart : ∀ old ∈ rows, key old ≠ key row :=
    fun old member same => absent (same ▸ List.mem_map_of_mem member)
  constructor
  · rw [List.map_congr_left fun old member => if_neg (apart old member), List.map_id']
  · exact List.filter_eq_self.mpr fun old member => decide_eq_true (apart old member)

theorem sum_update (f : α → M) (replaces : ∀ old, key old = key row → f (merge old row) = f row)
    (keyed : (rows.map key).Nodup) (known : key row ∈ rows.map key) :
    ((rows.map fun old => if key old = key row then merge old row else old).map f).sum =
      ((rows.filter fun old => key old ≠ key row).map f).sum + f row := by
  induction rows with
  | nil => contradiction
  | cons old rest ih =>
    obtain ⟨apart, keyed⟩ := List.nodup_cons.mp keyed
    rw [List.map_cons, List.map_cons, List.sum_cons]
    by_cases same : key old = key row
    · obtain ⟨unchanged, all⟩ := update_of_absent merge (same ▸ apart)
      rw [if_pos same, List.filter_cons_of_neg (by simpa using same), unchanged, all,
        replaces old same, add_comm]
    · have later : key row ∈ rest.map key := (List.mem_cons.mp known).resolve_left (Ne.symm same)
      rw [if_neg same, List.filter_cons_of_pos (by simpa using same), ih keyed later, List.map_cons,
        List.sum_cons, add_assoc]

/-- A row that replaces what is there counts once, and with the others. -/
theorem sum_upsert (f : α → M) (replaces : ∀ old, key old = key row → f (merge old row) = f row)
    (keyed : (rows.map key).Nodup) :
    ((upsert key merge row rows).map f).sum =
      ((rows.filter fun old => key old ≠ key row).map f).sum + f row := by
  have known : (rows.any fun old => key old = key row) = true ↔ key row ∈ rows.map key := by
    simp [List.any_eq_true]
  rw [upsert]
  split_ifs with found
  · exact sum_update f replaces keyed (known.mp found)
  · rw [(update_of_absent merge fun member => found (known.mpr member)).2, List.map_append,
      List.sum_append]
    simp

theorem sum_filter (f : α → M) (p : α → Bool) (rows : List α) :
    ((rows.filter p).map f).sum = (rows.map fun row => if p row then f row else 0).sum := by
  induction rows with
  | nil => rfl
  | cons row rest ih =>
    rw [List.filter_cons, List.map_cons, List.sum_cons, ← ih]
    split_ifs
    · rfl
    · rw [zero_add]

end KeyedTable
