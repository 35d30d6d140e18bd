import Mathlib.Data.List.Perm.Subperm
import SimplePool.Lib.KeysetPages
import SimplePool.Store.Schema

/-! The pages of the block history. The next page starts strictly below the last timestamp of
this one, and several blocks can have that timestamp. -/
namespace SimplePool.Dashboard
open Store KeysetPages

/-- A row of `blocks_found` with the columns that only the dashboard reads. -/
structure HistoryRow extends BlockFound where
  ts : Int
  finderId : Option Nat
  finderAddress : Option String
deriving DecidableEq

/-- The names of `workers` are found by their primary key. -/
structure HistoryDb where
  blocksFound : List HistoryRow
  workers : Nat → Option String

/-- The row, and the name that is joined to it. -/
structure ListedBlock where
  block : HistoryRow
  finder : Option String
deriving DecidableEq

def listed (db : HistoryDb) (row : HistoryRow) : ListedBlock := ⟨row, row.finderId.bind db.workers⟩

structure HistoryPage where
  rows : List ListedBlock
  nextBefore : Option Int

/-- `cap`. What `Number` does not read as a number is none. -/
def pageSize (limit : Option Int) : Nat :=
  let limit := limit.getD 0
  (min (max (if limit = 0 then 50 else limit) 1) 200).toNat

section
variable (sqlite : Listing HistoryRow.ts) (number : Rounding Int) (d : Option HistoryDb)
  (limit : Option Int)

/-- A timestamp comes back from the database as a double. -/
def allBlocks (beforeTs : Option Int) : HistoryPage :=
  match d with
  | none => ⟨[], none⟩
  | some db =>
    let cap := pageSize limit
    let rows := match beforeTs with
      | none => (sqlite.list db.blocksFound).take cap
      | some before => (sqlite.list (db.blocksFound.filter fun row => row.ts < before)).take cap
    let rows := rows.map (listed db)
    ⟨rows, if rows.length = cap then rows.getLast?.map fun row => number.round row.block.ts
      else none⟩

/-- From page to page as long as there is a next one. -/
def follow : Nat → Option Int → Option (List ListedBlock)
  | 0, _ => none
  | fuel + 1, beforeTs =>
    let page := allBlocks sqlite number d limit beforeTs
    match page.nextBefore with
    | none => some page.rows
    | some before => (follow fuel (some before)).map (page.rows ++ ·)

end

/-- The pages come to an end, and have shown each row once. -/
def ShowsEachOnce (sqlite : Listing HistoryRow.ts) (number : Rounding Int) (db : HistoryDb)
    (limit : Option Int) : Prop :=
  ∃ fuel shown, follow sqlite number (some db) limit fuel none = some shown ∧
  shown.Perm (db.blocksFound.map (listed db))

theorem pageSize_pos (limit : Option Int) : 0 < pageSize limit := by
  rw [pageSize]
  omega

section
variable (sqlite : Listing HistoryRow.ts) (number : Rounding Int) (db : HistoryDb)
  (limit : Option Int)

theorem listed_injective : Function.Injective (listed db) := by
  intro a b same
  exact congrArg ListedBlock.block same

theorem allBlocks_rows (beforeTs : Option Int) :
    (allBlocks sqlite number (some db) limit beforeTs).rows =
      (page sqlite (pageSize limit) db.blocksFound beforeTs).map (listed db) := by
  cases beforeTs with
  | none => rfl
  | some before => rfl

theorem allBlocks_nextBefore (beforeTs : Option Int) :
    (allBlocks sqlite number (some db) limit beforeTs).nextBefore =
      nextBefore HistoryRow.ts number (pageSize limit)
        (page sqlite (pageSize limit) db.blocksFound beforeTs) := by
  have rows := allBlocks_rows sqlite number db limit beforeTs
  rw [nextBefore]
  change (if (allBlocks sqlite number (some db) limit beforeTs).rows.length = pageSize limit then
    (allBlocks sqlite number (some db) limit beforeTs).rows.getLast?.map _ else none) = _
  rw [rows, List.length_map, List.getLast?_map, Option.map_map]
  rfl

/-- The pages are those of the general scheme. -/
theorem follow_eq (fuel : Nat) (beforeTs : Option Int) :
    follow sqlite number (some db) limit fuel beforeTs =
    (walk sqlite number (pageSize limit) db.blocksFound fuel beforeTs).map
      (List.map (listed db)) := by
  induction fuel generalizing beforeTs with
  | zero => rfl
  | succ fuel ih =>
    rw [follow, walk, allBlocks_nextBefore, allBlocks_rows]
    cases nextBefore HistoryRow.ts number (pageSize limit)
      (page sqlite (pageSize limit) db.blocksFound beforeTs) with
    | none => rfl
    | some before =>
      simp only [ih, Option.map_map]
      congr 1
      funext rows
      exact (List.map_append ..).symm

theorem showsEachOnce_complete :
    ShowsEachOnce sqlite number db limit ↔
    Complete sqlite number (pageSize limit) db.blocksFound := by
  constructor
  · rintro ⟨fuel, shown, done, whole⟩
    rw [follow_eq] at done
    obtain ⟨visited, walked, rfl⟩ := Option.map_eq_some_iff.mp done
    exact ⟨fuel, visited, walked, (List.map_perm_map_iff (listed_injective db)).mp whole⟩
  · rintro ⟨fuel, visited, walked, whole⟩
    refine ⟨fuel, visited.map (listed db), ?_, whole.map (listed db)⟩
    rw [follow_eq, walked, Option.map_some]

/-- Timestamps that a double holds exactly: the pages come to an end, and show no row twice. -/
theorem history_ends (unrounded : ∀ row ∈ db.blocksFound, number.round row.ts = row.ts) :
    ∃ fuel shown, follow sqlite number (some db) limit fuel none = some shown ∧
      shown.Subperm (db.blocksFound.map (listed db)) := by
  obtain ⟨fuel, visited, walked, once⟩ := walk_ends sqlite (pageSize_pos limit)
    (fun row member => (unrounded row member).le) none
  refine ⟨fuel, visited.map (listed db), ?_, List.Subperm.map (listed_injective db) once⟩
  rw [follow_eq, walked, Option.map_some]

/-- And show them all unless two blocks of one second stand on both sides of a page boundary. -/
theorem history_complete_untied (unrounded : ∀ row ∈ db.blocksFound, number.round row.ts = row.ts) :
    ShowsEachOnce sqlite number db limit ↔
    Untied (pageSize limit) (keysOf HistoryRow.ts db.blocksFound) := by
  rw [showsEachOnce_complete, complete_iff sqlite number (pageSize_pos limit)]
  apply separated_untied (pageSize_pos limit) (keysOf_sorted _ _)
  intro ts member
  obtain ⟨row, stored, rfl⟩ := List.mem_map.mp ((keysOf_perm _ _).mem_iff.mp member)
  exact unrounded row stored

end

/-- The history is complete exactly when after each full page the cursor is not above the last
timestamp that was shown and is above the next one. -/
theorem block_history_complete_iff (sqlite : Listing HistoryRow.ts) (number : Rounding Int)
    (db : HistoryDb) (limit : Option Int) :
    ShowsEachOnce sqlite number db limit ↔
    Separated number (pageSize limit) (keysOf HistoryRow.ts db.blocksFound) :=
  (showsEachOnce_complete sqlite number db limit).trans
    (complete_iff sqlite number (pageSize_pos limit) db.blocksFound)

def blockAt (id : Nat) (height ts : Int) (hash : String) : HistoryRow where
  id
  height
  hash
  rewardSats := some 5000000000
  feeSats := none
  status := .confirmed
  confirmations := 10
  pplnsWindowDiff := 0
  pplnsDistributed := false
  checkedVia := some .node
  ts
  finderId := none
  finderAddress := none

/-- Two blocks of one second, on a chain of low difficulty. -/
def oneSecond : HistoryDb :=
  ⟨[blockAt 1 100 1700000000 "a1", blockAt 2 101 1700000000 "b2"], fun _ => none⟩

/-- With one block to a page the second one is never shown. -/
theorem same_second_skipped : ¬ShowsEachOnce (Listing.stable _) Rounding.exact oneSecond (some 1) ∧
    (follow (Listing.stable _) Rounding.exact (some oneSecond) (some 1) 2 none).map
      (List.map fun shown => shown.block.hash) = some ["a1"] := by
  constructor
  · intro complete
    have untied := (history_complete_untied _ _ oneSecond (some 1) fun _ _ => rfl).mp complete
    have keys : keysOf HistoryRow.ts oneSecond.blocksFound = [1700000000, 1700000000] := by
      decide +kernel
    rw [keys] at untied
    exact untied 0 1700000000 rfl 1700000000 rfl rfl
  · decide +kernel

end SimplePool.Dashboard
