import Mathlib.Algebra.Order.Field.Rat
import Mathlib.Data.List.Nodup

/-! The tables of schema.sql that the modelled statements touch. REAL columns are
exact rationals. -/
namespace SimplePool.Store

/-- A text as `snprintf` and `strncpy` leave it in a buffer of `size` bytes, one of
which is the terminator. -/
def buffer (size : Nat) (text : String) : String := String.ofList (text.toList.take (size - 1))

theorem buffer_eq (short : text.toList.length < size) : buffer size text = text := by
  rw [buffer, List.take_of_length_le (by omega), String.ofList_toList]

def hashStrMax : Nat := 96

structure Worker where
  id : Nat
  payoutAddress : Option String
deriving DecidableEq, Repr

structure Share where
  id : Nat
  workerId : Nat
  difficulty : ℚ
  blockHash : Option String
deriving DecidableEq, Repr

def int64Max : Nat := 2 ^ 63 - 1

/-- `INTEGER PRIMARY KEY AUTOINCREMENT` hands out ascending positive row ids.
A database file is at most 2^48 bytes long, which bounds the number of rows. -/
structure ShareTable where
  rows : List Share
  ascending : rows.Pairwise (fun a b => a.id < b.id)
  ranged : ∀ row ∈ rows, 0 < row.id ∧ row.id ≤ int64Max
  sized : rows.length ≤ 2 ^ 48

/-- `ORDER BY id DESC`. -/
def ShareTable.newest (shares : ShareTable) : List Share := shares.rows.reverse

inductive BlockStatus where
  | pending | confirmed | orphaned | rejected
deriving DecidableEq, Repr

/-- Which source answered for a block's status. -/
inductive CheckedVia where
  | node | tips
deriving DecidableEq, Repr

structure BlockFound where
  id : Nat
  height : Int
  hash : String
  rewardSats : Option Int
  feeSats : Option Int
  status : BlockStatus
  confirmations : Int
  pplnsWindowDiff : ℚ
  pplnsDistributed : Bool
  checkedVia : Option CheckedVia
deriving DecidableEq, Repr

/-- `blocks_found`, one row per primary key. -/
structure BlockTable where
  rows : List BlockFound
  keyed : (rows.map BlockFound.id).Nodup

/-- An UPDATE that leaves the primary key alone. -/
def BlockTable.update (t : BlockTable) (f : BlockFound → BlockFound)
    (key : ∀ row, (f row).id = row.id) :
    BlockTable where
  rows := t.rows.map f
  keyed := by simpa only [List.map_map, Function.comp_def, key] using t.keyed

theorem BlockTable.eq_of_id (t : BlockTable) (a : row ∈ t.rows) (b : other ∈ t.rows)
    (same : row.id = other.id) : row = other :=
  List.inj_on_of_nodup_map t.keyed a b same

/-- AUTOINCREMENT numbers past every row. -/
def BlockTable.nextId (t : BlockTable) : Nat := (t.rows.map BlockFound.id).foldr max 0 + 1

theorem BlockTable.id_lt_nextId (t : BlockTable) (member : row ∈ t.rows) : row.id < t.nextId := by
  have bound : ∀ ids : List Nat, ∀ id ∈ ids, id ≤ ids.foldr max 0 := by
    intro ids
    induction ids with
    | nil => simp
    | cons first rest ih =>
      intro id member
      simp only [List.foldr_cons, List.mem_cons] at *
      rcases member with rfl | member
      · exact Nat.le_max_left _ _
      · exact (ih id member).trans (Nat.le_max_right _ _)
  exact Nat.lt_succ_of_le (bound _ _ (List.mem_map_of_mem member))

def BlockTable.insert (t : BlockTable) (row : BlockFound) : BlockTable where
  rows := t.rows ++ [{ row with id := t.nextId }]
  keyed := by
    rw [List.map_append, List.map_singleton, List.nodup_append]
    refine ⟨t.keyed, List.nodup_singleton _, ?_⟩
    intro id member other new
    obtain ⟨old, known, rfl⟩ := List.mem_map.mp member
    obtain rfl := List.mem_singleton.mp new
    exact (t.id_lt_nextId known).ne

/-- Who dictated the coinbase of a template. -/
inductive TemplateSource where
  | enforcer | bitcoind
deriving DecidableEq, Repr

structure Template where
  ts : Int
  height : Int
  prevHash : String
  bits : String
  networkDifficulty : ℚ
  coinbaseValueSats : Int
  txCount : Int
  txFeesSats : Int
  source : TemplateSource
  cbSpendable : Int
  cbOpReturns : Int
  longpoll : Bool
  rateSatsPerDiff : ℚ
  lastSeen : Int
  polls : Nat
deriving DecidableEq, Repr

structure PpsCredit where
  workerId : Nat
  accruedSats : Int
  paidSats : Int
deriving DecidableEq, Repr

structure PplnsFraction where
  workerId : Nat
  owedFraction : ℚ
deriving DecidableEq, Repr

/-- What a found block's coinbase did to a worker's fraction, held until the block is
settled. -/
structure PendingFraction where
  blockHash : String
  workerId : Nat
  delta : ℚ
deriving DecidableEq, Repr

/-- One credit of the distributor. The source keeps only the balance it went
into; the model also remembers the block it came from. -/
structure Credit where
  blockId : Nat
  workerId : Nat
  sats : Int
deriving DecidableEq, Repr

structure Db where
  workers : List Worker
  shares : ShareTable
  blocksFound : BlockTable
  /-- In the order of their ids. -/
  templates : List Template
  ppsCredits : List PpsCredit
  pplnsFractions : List PplnsFraction
  pendingFractions : List PendingFraction
  credited : List Credit

def Db.empty : Db where
  workers := []
  shares := ⟨[], List.Pairwise.nil, by simp, by simp⟩
  blocksFound := ⟨[], List.nodup_nil⟩
  templates := []
  ppsCredits := []
  pplnsFractions := []
  pendingFractions := []
  credited := []

end SimplePool.Store
