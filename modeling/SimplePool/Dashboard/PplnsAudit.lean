import Mathlib.Logic.Relation
import SimplePool.Coinbase.Window
import SimplePool.Lib.KeyedTable
import SimplePool.Store.Conserved
import SimplePool.Stratum.Share

/-! The audit that the dashboard shows a worker of a PPLNS pool: what the newest distributed
blocks owe the worker, worked out again from the shares. The distributor leaves a fee that is
dust with the miners, and the audit does not; the audit stops at a number of blocks, and the
balance does not. -/
namespace SimplePool.Dashboard
open Store Proportion
open Coinbase (FeeBps)
open Stratum (Fpu)

/-- `Math.trunc`. -/
def trunc (x : ℚ) : Int := if 0 ≤ x then ⌊x⌋ else ⌈x⌉

/-- A number of the page is a double. -/
def auditPayable (fp : Fpu) (gross feeBps : Int) : ℚ :=
  let number := fp.round gross
  if 0 < feeBps ∧ feeBps ≤ 10000 then
    fp.round (number - ⌊fp.round (fp.round (number * feeBps) / 10000)⌋)
  else number

/-- `mine` and `total` of the window of a block. -/
def auditSplit (shares : ShareTable) (hash : String) (workerId : Nat) (window : ℚ) : ℚ × ℚ :=
  let rows := anchoredRows shares hash window
  (difficultySum (rows.filter fun row => row.workerId = workerId), difficultySum rows)

structure AuditedBlock where
  height : Int
  hash : String
  gross : ℚ
  payable : ℚ
  windowDiff : ℚ
  myDiff : ℚ
  winDiff : ℚ
  sharePct : ℚ
  credited : Int
deriving DecidableEq

/-- The proportional part is exact. -/
def auditedBlock (fp : Fpu) (shares : ShareTable) (feeBps : Int) (workerId : Nat)
    (row : BlockFound) : AuditedBlock :=
  let payable := auditPayable fp (gross row) feeBps
  let (mine, total) := auditSplit shares row.hash workerId row.pplnsWindowDiff
  { height := row.height
    hash := row.hash
    gross := fp.round (gross row)
    payable
    windowDiff := row.pplnsWindowDiff
    myDiff := mine
    winDiff := total
    sharePct := if 0 < total then mine / total * 100 else 0
    credited := if 0 < total ∧ 0 < mine then trunc (payable * (mine / total)) else 0 }

/-- The distributed blocks, `ORDER BY height DESC`. -/
def distributedRows (db : Db) : List BlockFound :=
  (db.blocksFound.rows.filter fun row => row.pplnsDistributed ∧
    0 < row.pplnsWindowDiff).insertionSort
    fun a b => b.height ≤ a.height

structure PplnsAudit where
  feeBps : Int
  blocks : List AuditedBlock
  creditedTotal : Int
  blockCount : Nat
  truncated : Bool
deriving DecidableEq

/-- The default of `limit`. -/
def auditLimit : Nat := 50

/-- The fee is the one that `pool_meta` has now. -/
def pplnsAuditFor (fp : Fpu) (metaFeeBps : Option Int) (db : Db) (workerId limit : Nat) :
    PplnsAudit :=
  let feeBps := metaFeeBps.getD 0
  let rows := (distributedRows db).take limit
  let blocks := rows.map (auditedBlock fp db.shares feeBps workerId)
  { feeBps
    blocks
    creditedTotal := (blocks.map AuditedBlock.credited).sum
    blockCount := blocks.length
    truncated := rows.length = limit }

/-- The credits of a worker for a block. -/
def creditedFor (db : Db) (workerId blockId : Nat) : Int :=
  (((creditsOf db blockId).filter fun credit => credit.workerId = workerId).map Credit.sats).sum

/-- What the store says when each distributed block was split whole at one fee, over the balances
that there were otherwise. -/
structure Distributed (base : Nat → Int) (feeBps : Int) (db : Db) : Prop where
  consistent : Consistent base (· = feeBps) db
  known : ∀ credit ∈ db.credited, ∃ row ∈ db.blocksFound.rows, row.id = credit.blockId
  windowed : ∀ row ∈ db.blocksFound.rows, row.pplnsDistributed = true → 0 < row.pplnsWindowDiff
  /-- Hashes and rewards come from the writer. -/
  hashes : ∀ row ∈ db.blocksFound.rows, row.hash.toList.length < hashStrMax
  rewards : ∀ row ∈ db.blocksFound.rows, 0 ≤ gross row

section Block

variable {shares : ShareTable} {row : BlockFound} {workerId : Nat} {feeBps : Int}

theorem creditOf_workerId {entry : WindowRow} (made : creditOf blockId amount entry = some credit) :
    credit.workerId = entry.workerId := by
  rw [creditOf] at made
  split at made
  · contradiction
  · dsimp only at made
    split at made
    · contradiction
    · cases made
      rfl

/-- Of the groups only the worker's own counts. -/
theorem groups_of_worker (blockId : Nat) (amount : Int) {ids : List Nat} (distinct : ids.Nodup)
    (group : Nat → WindowRow) (named : ∀ id, (group id).workerId = id) :
    (((ids.map group).filterMap (creditOf blockId amount)).filter fun credit => credit.workerId =
      workerId) =
      if workerId ∈ ids then (creditOf blockId amount (group workerId)).toList else [] := by
  induction ids with
  | nil => rfl
  | cons id rest ih =>
    obtain ⟨apart, distinct⟩ := List.nodup_cons.mp distinct
    have later := ih distinct
    rw [List.map_cons]
    cases made : creditOf blockId amount (group id) with
    | none =>
      rw [List.filterMap_cons_none made, later]
      by_cases mine : workerId = id
      · subst mine
        rw [if_neg apart, if_pos List.mem_cons_self, made]
        rfl
      · simp [mine]
    | some credit =>
      have owner : credit.workerId = id := (creditOf_workerId made).trans (named id)
      rw [List.filterMap_cons_some made, List.filter_cons]
      by_cases mine : workerId = id
      · subst mine
        rw [if_pos (by simpa using owner), later, if_neg apart, if_pos List.mem_cons_self, made]
        rfl
      · have other : ¬credit.workerId = workerId := fun same => mine (same.symm.trans owner)
        rw [if_neg (by simpa using other), later]
        simp [mine]

theorem difficultySum_absent {rows : List Share} (absent : workerId ∉ rows.map Share.workerId) :
    difficultySum (rows.filter fun row => row.workerId = workerId) = 0 := by
  have nothing : (rows.filter fun row => row.workerId = workerId) = [] := by
    rw [List.filter_eq_nil_iff]
    intro row member same
    exact absent (List.mem_map.mpr ⟨row, member, of_decide_eq_true same⟩)
  rw [nothing]
  rfl

/-- The satoshis of a group, when the amount is not negative. -/
theorem creditOf_getD (blockId : Nat) {amount : Int} (nonneg : 0 ≤ amount) (entry : WindowRow) :
    ((creditOf blockId amount entry).map Credit.sats).getD 0 =
      if 0 < entry.total ∧ 0 < entry.wd then ⌊(amount : ℚ) * (entry.wd / entry.total)⌋ else 0 := by
  by_cases worked : 0 < entry.total ∧ 0 < entry.wd
  · rw [creditOf_sats blockId amount worked.2.le worked.1 nonneg, if_pos worked, share]
  · rw [creditOf, if_pos (by tauto), if_neg worked]
    rfl

/-- The credit for a block is the worker's part of the window, rounded down. -/
theorem sum_split (nonneg : 0 ≤ payable (gross row) feeBps)
    (fits : buffer hashStrMax row.hash = row.hash) :
    (((split shares row feeBps).filter fun credit => credit.workerId = workerId).map
      Credit.sats).sum =
      let (mine, total) := auditSplit shares row.hash workerId row.pplnsWindowDiff
      if 0 < total ∧ 0 < mine then ⌊(payable (gross row) feeBps : ℚ) * (mine / total)⌋ else 0 := by
  dsimp only [auditSplit]
  rw [split]
  split
  next nothing =>
    rw [le_antisymm nothing nonneg]
    simp
  next something =>
    rw [windowQuery, fits, groupByWorker, groups_of_worker _ _ (List.nodup_dedup _) _ fun _ => rfl]
    simp only [List.mem_dedup]
    split
    next there =>
      rw [← creditOf_getD row.id nonneg ⟨workerId, _, _⟩]
      cases creditOf row.id (payable (gross row) feeBps) _ with
      | none => rfl
      | some credit => simp
    next absent =>
      rw [difficultySum_absent absent]
      simp

end Block

/-- The operator fee in whole satoshis. -/
def operatorFee (gross feeBps : Int) : Int := (gross * feeBps).tdiv 10000

/-- A fee that the distributor deducts when there is one, on numbers that a double holds. -/
structure Charged (fp : Fpu) (gross feeBps : Int) : Prop where
  kept : operatorFee gross feeBps = 0 ∨ coinbaseDustSats ≤ operatorFee gross feeBps
  number : fp.round gross = gross
  product : fp.round (gross * feeBps) = gross * feeBps
  quotient : ⌊fp.round (gross * feeBps / 10000)⌋ = operatorFee gross feeBps
  difference : fp.round ((gross : ℚ) - operatorFee gross feeBps) =
    (gross : ℚ) - operatorFee gross feeBps

theorem Charged.payable {gross : Int} (charged : Charged fp gross feeBps) :
    auditPayable fp gross feeBps = payable gross feeBps := by
  rw [auditPayable, Store.payable, ← operatorFee]
  dsimp only
  rw [charged.number]
  by_cases inRange : 0 < feeBps ∧ feeBps ≤ 10000
  · rw [if_pos inRange, if_pos inRange, charged.product, charged.quotient, charged.difference]
    rcases charged.kept with free | large
    · rw [free, if_neg (by decide)]
      simp
    · rw [if_pos large]
      push_cast
      rfl
  · rw [if_neg inRange, if_neg inRange]

theorem payable_nonneg {gross : Int} (gross_nonneg : 0 ≤ gross) (feeBps : FeeBps) :
    0 ≤ payable gross feeBps.bps := by
  have checked := feeBps.checked
  have fee : gross * feeBps.bps ≤ gross * 10000 := by
    apply mul_le_mul_of_nonneg_left _ gross_nonneg
    omega
  rw [payable]
  dsimp only
  split_ifs
  · rw [Int.tdiv_eq_ediv_of_nonneg (mul_nonneg gross_nonneg (by omega))]
    omega
  · exact gross_nonneg
  · exact gross_nonneg

theorem trunc_of_nonneg {x : ℚ} (nonneg : 0 ≤ x) : trunc x = ⌊x⌋ := if_pos nonneg

/-- The audit of a block gives what its split has for the worker. -/
theorem auditedBlock_credited {feeBps : FeeBps} (charged : Charged fp (gross row) feeBps.bps)
    (nonneg : 0 ≤ gross row) (fits : row.hash.toList.length < hashStrMax) :
    (auditedBlock fp shares feeBps.bps workerId row).credited =
      (((split shares row feeBps.bps).filter fun credit => credit.workerId = workerId).map
        Credit.sats).sum := by
  have amount := payable_nonneg nonneg feeBps
  rw [sum_split amount (buffer_eq fits), auditedBlock]
  dsimp only
  rw [charged.payable]
  split
  next worked =>
    have amount : (0 : ℚ) ≤ payable (gross row) feeBps.bps := by exact_mod_cast amount
    exact trunc_of_nonneg (mul_nonneg amount (div_nonneg worked.2.le worked.1.le))
  next => rfl

section Books

variable {base : Nat → Int} {feeBps : FeeBps} {db : Db} {workerId : Nat}

theorem mem_distributedRows : row ∈ distributedRows db ↔
    row ∈ db.blocksFound.rows ∧ row.pplnsDistributed = true ∧ 0 < row.pplnsWindowDiff := by
  rw [distributedRows, List.mem_insertionSort, List.mem_filter, decide_eq_true_eq]

theorem Distributed.creditsOf_eq (books : Distributed base feeBps.bps db)
    (member : row ∈ distributedRows db) :
    creditsOf db row.id = split db.shares row feeBps.bps := by
  obtain ⟨known, set, _⟩ := mem_distributedRows.mp member
  rcases books.consistent.settled row known with ⟨clear, _⟩ | ⟨_, fee, rfl, credits⟩
  · rw [clear] at set
    contradiction
  · exact credits

/-- A block that the audit does not read has nothing credited. -/
theorem Distributed.creditedFor_eq_zero (books : Distributed base feeBps.bps db)
    (known : row ∈ db.blocksFound.rows)
    (unread : ¬(row.pplnsDistributed = true ∧ 0 < row.pplnsWindowDiff)) :
    creditedFor db workerId row.id = 0 := by
  have clear : row.pplnsDistributed = false := by
    by_contra set
    have set := Bool.eq_true_of_not_eq_false set
    exact unread ⟨set, books.windowed row known set⟩
  rcases books.consistent.settled row known with ⟨_, nothing⟩ | ⟨set, _⟩
  · rw [creditedFor, nothing]
    rfl
  · rw [clear] at set
    contradiction

/-- The blocks account for everything a worker was credited. -/
theorem Distributed.creditedTo_eq (books : Distributed base feeBps.bps db) (workerId : Nat) :
    creditedTo db workerId =
      ((distributedRows db).map fun row => creditedFor db workerId row.id).sum := by
  have covered : ∀ credit ∈ db.credited.filter fun credit => credit.workerId = workerId,
      credit.blockId ∈ db.blocksFound.rows.map BlockFound.id := by
    intro credit member
    obtain ⟨row, known, same⟩ := books.known credit (List.mem_of_mem_filter member)
    exact List.mem_map.mpr ⟨row, known, same⟩
  have read (row : BlockFound) (member : row ∈ db.blocksFound.rows) :
    creditedFor db workerId row.id =
      if decide (row.pplnsDistributed ∧ 0 < row.pplnsWindowDiff) then
        creditedFor db workerId row.id
      else 0 := by
    split
    next => rfl
    next unread => exact books.creditedFor_eq_zero member (by simpa using unread)
  have sorted : (distributedRows db).Perm (db.blocksFound.rows.filter fun row =>
      row.pplnsDistributed ∧ 0 < row.pplnsWindowDiff) :=
    List.perm_insertionSort _ _
  calc creditedTo db workerId
      = ((db.blocksFound.rows.map BlockFound.id).map (creditedFor db workerId)).sum := by
        rw [Store.creditedTo, ← sum_groups db.blocksFound.keyed covered]
        refine congrArg List.sum (List.map_congr_left fun blockId _ => ?_)
        rw [creditedFor, creditsOf, List.filter_comm]
    _ = (db.blocksFound.rows.map fun row => creditedFor db workerId row.id).sum := by
      rw [List.map_map]; rfl
    _ = ((db.blocksFound.rows.filter fun row => row.pplnsDistributed ∧ 0 < row.pplnsWindowDiff).map
          fun row => creditedFor db workerId row.id).sum := by
        rw [KeyedTable.sum_filter, List.map_congr_left read]
    _ = ((distributedRows db).map fun row => creditedFor db workerId row.id).sum :=
      ((sorted.map _).sum_eq).symm

end Books

/-- What happens to the tables while the fee stays what it is. Any call of the distributor but a
step of its window query may fail. -/
inductive BooksStep (feeBps : Int) : Db → Db → Prop where
  | share {before after : Db} (row : Share) (added : after.shares.rows =
    before.shares.rows ++ [row])
      (apart : ∀ block ∈ before.blocksFound.rows, block.pplnsDistributed = true →
        row.blockHash ≠ some block.hash)
      (rest : after = { before with shares := after.shares }) : BooksStep feeBps before after
  | found {before : Db} (row : BlockFound) (fresh : row.pplnsDistributed = false)
    (sized : row.hash.toList.length < hashStrMax)
      (reward : 0 ≤ gross row) : BooksStep feeBps before { before with
        blocksFound := before.blocksFound.insert row }
  | judged {before : Db} (f : BlockFound → BlockFound) (key : ∀ row, (f row).id = row.id)
      (frame : ∀ row, (f row).hash = row.hash ∧ gross (f row) = gross row ∧
        (f row).pplnsWindowDiff = row.pplnsWindowDiff ∧
        (f row).pplnsDistributed = row.pplnsDistributed) :
      BooksStep feeBps before { before with blocksFound := before.blocksFound.update f key }
  | distribute {before : Db} (oracle : Oracle) (reads : ∀ position,
    oracle (.step .window) position = .served)
      (maturityConfs : Int) :
      BooksStep feeBps before (storePplnsDistribute oracle maturityConfs feeBps
        ⟨before, none, 0⟩).2.committed

section Run

variable {base : Nat → Int} {feeBps : Int} {db : Db}

theorem distributed_empty : Distributed (fun _ => 0) feeBps Db.empty where
  consistent := ⟨by simp [Db.empty], fun _ => rfl⟩
  known := by simp [Db.empty]
  windowed := by simp [Db.empty]
  hashes := by simp [Db.empty]
  rewards := by simp [Db.empty]

/-- A newer share is in no window that is anchored already. -/
theorem anchoredRows_append {shares after : ShareTable} (added : after.rows = shares.rows ++ [row])
    (hash : String) (apart : row.blockHash ≠ some hash) (window : ℚ) :
    anchoredRows after hash window = anchoredRows shares hash window := by
  have anchor : anchorId after hash = anchorId shares hash := by
    rw [anchorId, added, List.filter_append, List.filter_singleton, decide_eq_false apart]
    simp [anchorId]
  rw [anchoredRows, anchoredRows, anchor]
  cases found : anchorId shares hash with
  | none => rfl
  | some top =>
    have ascending := after.ascending
    rw [added, List.pairwise_append] at ascending
    obtain ⟨own, member, same⟩ := List.mem_map.mp (List.max?_eq_some_iff.mp found).1
    have newer : own.id < row.id :=
      ascending.2.2 own (List.mem_of_mem_filter member) row (List.mem_singleton_self row)
    have kept : (after.newest.filter fun share => share.id ≤ top) =
          shares.newest.filter fun share => share.id ≤ top := by
      rw [ShareTable.newest, ShareTable.newest, added, List.reverse_append, List.reverse_singleton,
        List.filter_append,
        List.filter_singleton, decide_eq_false (by omega), cond_false, List.nil_append]
    dsimp only
    rw [kept]

/-- A block that is settled stays so when its row and its window stay. -/
theorem settled_frame {fees : Int → Prop} {after : Db} {row now : BlockFound}
    (settled : Settled fees db row)
    (credited : after.credited = db.credited) (same : now.id = row.id)
    (latch : now.pplnsDistributed = row.pplnsDistributed)
    (whole : now.pplnsDistributed = true →
      ∀ fee, split after.shares now fee = split db.shares row fee) :
    Settled fees after now := by
  have credits : creditsOf after now.id = creditsOf db row.id := by
    rw [creditsOf, credited, same, creditsOf]
  rcases settled with ⟨clear, nothing⟩ | ⟨set, fee, used, all⟩
  · exact .inl ⟨latch.trans clear, credits.trans nothing⟩
  · exact .inr ⟨latch.trans set, fee, used,
      (credits.trans all).trans (whole (latch.trans set) fee).symm⟩

theorem Distributed.share (books : Distributed base feeBps db) {after : ShareTable}
    (added : after.rows = db.shares.rows ++ [row])
    (apart : ∀ block ∈ db.blocksFound.rows, block.pplnsDistributed = true →
      row.blockHash ≠ some block.hash) :
    Distributed base feeBps { db with shares := after } where
  consistent := by
    refine ⟨fun block known => settled_frame (books.consistent.settled block known) rfl rfl rfl
      fun set fee => ?_, books.consistent.backed⟩
    rw [split, split, windowQuery, windowQuery, buffer_eq (books.hashes block known),
      anchoredRows_append added block.hash (apart block known set)]
  known := books.known
  windowed := books.windowed
  hashes := books.hashes
  rewards := books.rewards

theorem Distributed.found (books : Distributed base feeBps db) {row : BlockFound}
    (fresh : row.pplnsDistributed = false)
    (sized : row.hash.toList.length < hashStrMax) (reward : 0 ≤ gross row) :
    Distributed base feeBps { db with blocksFound := db.blocksFound.insert row } := by
  have cases {block : BlockFound} (member : block ∈ (db.blocksFound.insert row).rows) :
      block ∈ db.blocksFound.rows ∨ block = { row with id := db.blocksFound.nextId } :=
    (List.mem_append.mp member).imp_right List.mem_singleton.mp
  constructor
  · refine ⟨fun block member => ?_, books.consistent.backed⟩
    rcases cases member with old | rfl
    · exact settled_frame (books.consistent.settled block old) rfl rfl rfl fun _ _ => rfl
    · refine .inl ⟨fresh, List.filter_eq_nil_iff.mpr fun credit inside same => ?_⟩
      obtain ⟨known, there, named⟩ := books.known credit inside
      have below := db.blocksFound.id_lt_nextId there
      have same := of_decide_eq_true same
      dsimp only at same
      omega
  · intro credit inside
    obtain ⟨known, there, named⟩ := books.known credit inside
    exact ⟨known, List.mem_append_left _ there, named⟩
  · intro block member set
    rcases cases member with old | rfl
    · exact books.windowed block old set
    · rw [fresh] at set
      contradiction
  · intro block member
    rcases cases member with old | rfl
    · exact books.hashes block old
    · exact sized
  · intro block member
    rcases cases member with old | rfl
    · exact books.rewards block old
    · exact reward

theorem Distributed.judged (books : Distributed base feeBps db) (f : BlockFound → BlockFound)
    (key : ∀ row, (f row).id = row.id)
    (frame : ∀ row, (f row).hash = row.hash ∧ gross (f row) = gross row ∧
      (f row).pplnsWindowDiff = row.pplnsWindowDiff ∧
      (f row).pplnsDistributed = row.pplnsDistributed) :
    Distributed base feeBps { db with blocksFound := db.blocksFound.update f key } := by
  constructor
  · refine ⟨fun block member => ?_, books.consistent.backed⟩
    obtain ⟨old, known, rfl⟩ := List.mem_map.mp member
    obtain ⟨hash, amount, window, latch⟩ := frame old
    refine settled_frame (books.consistent.settled old known) rfl (key old) latch fun _ fee => ?_
    rw [split, split, hash, amount, window, key]
  · intro credit inside
    obtain ⟨known, there, named⟩ := books.known credit inside
    exact ⟨f known, List.mem_map_of_mem there, (key known).trans named⟩
  · intro block member set
    obtain ⟨old, known, rfl⟩ := List.mem_map.mp member
    rw [(frame old).2.2.1]
    exact books.windowed old known ((frame old).2.2.2.symm.trans set)
  · intro block member
    obtain ⟨old, known, rfl⟩ := List.mem_map.mp member
    rw [(frame old).1]
    exact books.hashes old known
  · intro block member
    obtain ⟨old, known, rfl⟩ := List.mem_map.mp member
    rw [(frame old).2.1]
    exact books.rewards old known

theorem Distributed.settle (books : Distributed base feeBps db) {row : BlockFound}
    (known : row ∈ db.blocksFound.rows)
    (clear : row.pplnsDistributed = false) (windowed : 0 < row.pplnsWindowDiff) :
    Distributed base feeBps (settle row feeBps db) := by
  have rows {block : BlockFound} (member : block ∈ (Store.settle row feeBps db).blocksFound.rows) :
      ∃ old ∈ db.blocksFound.rows, block.id = old.id ∧ block.hash = old.hash ∧
      gross block = gross old ∧
        block.pplnsWindowDiff = old.pplnsWindowDiff ∧
        (block.pplnsDistributed = true → old.pplnsDistributed = true ∨ old = row) := by
    obtain ⟨old, there, rfl⟩ := (mem_settle_iff db row feeBps block).mp member
    by_cases same : old.id = row.id
    · rw [if_pos same]
      exact ⟨old, there, rfl, rfl, rfl, rfl,
        fun _ => .inr (db.blocksFound.eq_of_id there known same)⟩
    · rw [if_neg same]
      exact ⟨old, there, rfl, rfl, rfl, rfl, .inl⟩
  constructor
  · exact settle_consistent db books.consistent known clear rfl
  · intro credit inside
    have named : ∃ old ∈ db.blocksFound.rows, old.id = credit.blockId := by
      rw [Store.settle, markDistributed, creditAll_credited] at inside
      rcases List.mem_append.mp inside with before | new
      · exact books.known credit before
      · exact ⟨row, known, (split_blockId new).symm⟩
    obtain ⟨old, there, same⟩ := named
    refine ⟨_, (mem_settle_iff db row feeBps _).mpr ⟨old, there, rfl⟩, ?_⟩
    split
    · exact same
    · exact same
  · intro block member set
    obtain ⟨old, there, -, -, -, window, latch⟩ := rows member
    rw [window]
    rcases latch set with before | rfl
    · exact books.windowed old there before
    · exact windowed
  · intro block member
    obtain ⟨old, there, -, hash, -, -, -⟩ := rows member
    rw [hash]
    exact books.hashes old there
  · intro block member
    obtain ⟨old, there, -, -, amount, -, -⟩ := rows member
    rw [amount]
    exact books.rewards old there

theorem Distributed.settleAll (books : Distributed base feeBps db) {rows : List BlockFound}
    (due : Due db rows) (windowed : ∀ row ∈ rows, 0 < row.pplnsWindowDiff) :
    Distributed base feeBps (settleAll feeBps rows db) := by
  induction rows generalizing db with
  | nil => exact books
  | cons row rest ih =>
    obtain ⟨known, clear⟩ := due.2 row List.mem_cons_self
    exact ih (books.settle known clear (windowed row List.mem_cons_self)) (due.settle feeBps)
      fun other member => windowed other (List.mem_cons_of_mem _ member)

theorem BooksStep.distributed {after : Db} (step : BooksStep feeBps db after)
    (books : Distributed base feeBps db) :
    Distributed base feeBps after := by
  cases step with
  | share row added apart rest =>
    rw [rest]
    exact books.share added apart
  | found row fresh sized reward => exact books.found fresh sized reward
  | judged f key frame => exact books.judged f key frame
  | distribute oracle reads maturityConfs =>
    have closed : (⟨db, none, 0⟩ : Connection).working = none := rfl
    obtain ⟨distinct, known⟩ := dueQuery_due db (max maturityConfs 0)
    cases ran : storePplnsDistribute oracle maturityConfs feeBps ⟨db, none, 0⟩ with
    | mk result after =>
    obtain ⟨done, part, effect⟩ := storePplnsDistribute_settles reads closed ran
    rw [effect]
    refine books.settleAll ⟨(part.map BlockFound.id).nodup distinct,
      fun row member => known row (part.subset member)⟩ ?_
    intro row member
    have due := (List.mem_insertionSort _).mp (part.subset member)
    exact (of_decide_eq_true (List.mem_filter.mp due).2).2.2.2

/-- However the tables grow under one fee, every distributed block stays split whole at it. -/
theorem distributed_of_run (run : Relation.ReflTransGen (BooksStep feeBps) Db.empty db) :
    Distributed (fun _ => 0) feeBps db := by
  induction run with
  | refl => exact distributed_empty
  | tail _ step books => exact step.distributed books

end Run

/-- On a store whose distributed blocks were split at the fee that `pool_meta` has, the audit has
the newest of them, each with the credit that was written; the balance is what the worker had
otherwise, the audit's total, and the credits of the older blocks. -/
theorem audit_reproduces (fp : Fpu) (base : Nat → Int) (feeBps : FeeBps) (db : Db) (workerId : Nat)
    (books : Distributed base feeBps.bps db)
    (charged : ∀ row ∈ (distributedRows db).take auditLimit, Charged fp (gross row) feeBps.bps) :
    (pplnsAuditFor fp (some feeBps.bps) db workerId auditLimit).blocks.map
      (fun block => (block.hash, block.credited)) = ((distributedRows db).take auditLimit).map
          (fun row => (row.hash, creditedFor db workerId row.id)) ∧
      accruedSats db workerId =
        base workerId + (pplnsAuditFor fp (some feeBps.bps) db workerId auditLimit).creditedTotal +
        (((distributedRows db).drop auditLimit).map fun row => creditedFor db workerId row.id).sum ∧
      ((pplnsAuditFor fp (some feeBps.bps) db workerId auditLimit).truncated = false →
        accruedSats db workerId = base workerId +
          (pplnsAuditFor fp (some feeBps.bps) db workerId auditLimit).creditedTotal) := by
  have each (row : BlockFound) (member : row ∈ (distributedRows db).take auditLimit) :
      (auditedBlock fp db.shares feeBps.bps workerId row).credited =
        creditedFor db workerId row.id := by
    have listed := List.mem_of_mem_take member
    have known := (mem_distributedRows.mp listed).1
    rw [creditedFor, books.creditsOf_eq listed]
    exact auditedBlock_credited (charged row member) (books.rewards row known)
      (books.hashes row known)
  have total : (pplnsAuditFor fp (some feeBps.bps) db workerId auditLimit).creditedTotal =
      (((distributedRows db).take auditLimit).map fun row =>
        creditedFor db workerId row.id).sum := by
    rw [pplnsAuditFor]
    dsimp only
    rw [List.map_map]
    exact congrArg List.sum (List.map_congr_left each)
  have balance : accruedSats db workerId = base workerId +
      (pplnsAuditFor fp (some feeBps.bps) db workerId auditLimit).creditedTotal +
        (((distributedRows db).drop auditLimit).map fun row =>
          creditedFor db workerId row.id).sum := by
    rw [books.consistent.backed, books.creditedTo_eq, total, add_assoc, ← List.sum_append,
      ← List.map_append, List.take_append_drop]
  refine ⟨?_, balance, fun whole => ?_⟩
  · rw [pplnsAuditFor]
    dsimp only
    rw [List.map_map]
    refine List.map_congr_left fun row member => ?_
    exact Prod.ext rfl (each row member)
  · have short : ((distributedRows db).take auditLimit).length ≠ auditLimit :=
      of_decide_eq_false whole
    rw [List.length_take] at short
    rw [balance, List.drop_eq_nil_of_le (by omega), List.map_nil, List.sum_nil, add_zero]

/-- A pool that has not distributed anything. -/
theorem distributed_of_clear {db : Db} (feeBps : Int)
    (nothing : db.credited = [] ∧ db.ppsCredits = [])
    (rows : ∀ row ∈ db.blocksFound.rows, row.pplnsDistributed = false ∧
      row.hash.toList.length < hashStrMax ∧ 0 ≤ gross row) :
    Distributed (fun _ => 0) feeBps db where
  consistent := by
    refine ⟨fun row member => .inl ⟨(rows row member).1, ?_⟩, fun workerId => ?_⟩
    · rw [creditsOf, nothing.1]
      rfl
    · rw [accruedSats, creditedTo, nothing.1, nothing.2]
      rfl
  known := by simp [nothing.1]
  windowed row member set := by
    rw [(rows row member).1] at set
    contradiction
  hashes row member := (rows row member).2.1
  rewards row member := (rows row member).2.2

/-- Two workers with 30 and 20 of a window of 50, in a block of 50 coins. -/
def sharedRow : BlockFound :=
  ⟨1, 800200, "00ab", some 4950000000, some 50000000, .confirmed, 150, 50, false, some .node⟩

def sharedDb : Db :=
  { Db.empty with
    shares :=
      { rows := [⟨1, 1, 30, some "00cd"⟩, ⟨2, 2, 20, some "00ab"⟩]
        ascending := by decide
        ranged := by decide
        sized := by decide }
    blocksFound := ⟨[sharedRow], by decide⟩ }

theorem audit_reproduces_shared :
    (pplnsAuditFor .exact (some 100) (settle sharedRow 100 sharedDb) 1 auditLimit).creditedTotal =
      2970000000 ∧ accruedSats (settle sharedRow 100 sharedDb) 1 =
        0 + (pplnsAuditFor .exact (some 100) (settle sharedRow 100 sharedDb) 1
          auditLimit).creditedTotal := by
  have clear : Distributed (fun _ => 0) 100 sharedDb :=
    distributed_of_clear 100 ⟨rfl, rfl⟩ (by decide +kernel)
  have books := clear.settle (List.mem_singleton_self sharedRow) rfl (by decide +kernel)
  have facts :
    ((distributedRows (settle sharedRow 100 sharedDb)).take auditLimit).map gross = [5000000000] ∧
      (pplnsAuditFor .exact (some 100) (settle sharedRow 100 sharedDb) 1 auditLimit).creditedTotal =
        2970000000 ∧
      (pplnsAuditFor .exact (some 100) (settle sharedRow 100 sharedDb) 1 auditLimit).truncated =
        false := by
    decide +kernel
  have charged : Charged .exact 5000000000 100 :=
    ⟨.inr (by decide), rfl, rfl, by decide +kernel, rfl⟩
  have each : ∀ row ∈ (distributedRows (settle sharedRow 100 sharedDb)).take auditLimit,
      Charged .exact (gross row) 100 := by
    intro row member
    have amount : gross row ∈ [(5000000000 : Int)] := facts.1 ▸ List.mem_map_of_mem member
    rw [List.mem_singleton.mp amount]
    exact charged
  exact ⟨facts.2.1,
    (audit_reproduces .exact (fun _ => 0) ⟨100, by decide⟩ _ 1 books each).2.2 facts.2.2⟩

/-- A block of 1000 sats at each height from 1 to 51, all found by one worker. -/
def lastingDb : Db :=
  { Db.empty with
    shares :=
      { rows := (List.range 51).map fun i => ⟨i + 1, 1, 1,
          some (String.ofList (Nat.toDigits 10 (i + 1)))⟩
        ascending := by decide +kernel
        ranged := by decide +kernel
        sized := by decide +kernel }
    blocksFound :=
      { rows := (List.range 51).map fun i =>
          ⟨i + 1, i + 1, String.ofList (Nat.toDigits 10 (i + 1)), some 1000, none, .confirmed,
            100, 1, false, some .node⟩
        keyed := by decide +kernel } }

/-- The audit of a pool without a fee leaves its first block out. -/
theorem oldest_block_missing :
    Distributed (fun _ => 0) 0 (settleAll 0 lastingDb.blocksFound.rows lastingDb) ∧
      (pplnsAuditFor .exact (some 0) (settleAll 0 lastingDb.blocksFound.rows lastingDb) 1
        auditLimit).creditedTotal = 50000 ∧
      accruedSats (settleAll 0 lastingDb.blocksFound.rows lastingDb) 1 = 51000 := by
  have rows : ∀ row ∈ lastingDb.blocksFound.rows,
    (row.pplnsDistributed = false ∧ row.hash.toList.length < hashStrMax ∧ 0 ≤ gross row) ∧
      0 < row.pplnsWindowDiff := by
    decide +kernel
  have clear := distributed_of_clear 0 ⟨rfl, rfl⟩ fun row member => (rows row member).1
  have due : Due lastingDb lastingDb.blocksFound.rows :=
    ⟨lastingDb.blocksFound.keyed, fun row member => ⟨member, (rows row member).1.1⟩⟩
  exact ⟨clear.settleAll due fun row member => (rows row member).2, by decide +kernel⟩

end SimplePool.Dashboard
