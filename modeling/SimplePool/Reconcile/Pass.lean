import SimplePool.Store.Blocks
import SimplePool.Store.Distribute
import SimplePool.Store.Fractions

/-! The confirmation pass of reconcile.c, made at every new tip: ask the node about a
bounded batch of candidates, or fall back to the templates, then settle the payout
queue and distribute what has matured. -/
namespace SimplePool.Reconcile
open Store

/-- A block hash is 64 digits long, and every buffer for one holds more. -/
def hashDigits : Nat := 64

/-- The node's best chain, from its first block to the tip. -/
structure Chain where
  blocks : List String
  nonempty : blocks ≠ []
  sized : ∀ hash ∈ blocks, hash.toList.length ≤ hashDigits

namespace Chain

def tipHeight (chain : Chain) : Int := chain.blocks.length - 1

def tipHash (chain : Chain) : String := chain.blocks.getLast chain.nonempty

/-- The block is the tip or one of its ancestors. -/
def Has (chain : Chain) (height : Int) (hash : String) : Prop :=
  0 ≤ height ∧ chain.blocks[height.toNat]? = some hash

instance (chain : Chain) (height : Int) (hash : String) : Decidable (chain.Has height hash) :=
  inferInstanceAs (Decidable (_ ∧ _))

def extend (chain : Chain) (hash : String) (digits : hash.toList.length ≤ hashDigits) : Chain where
  blocks := chain.blocks ++ [hash]
  nonempty := by simp
  sized := by
    intro known member
    rcases List.mem_append.mp member with old | new
    · exact chain.sized known old
    · obtain rfl := List.mem_singleton.mp new
      exact digits

end Chain

/-- `gbh_state`, which latches: -1, 0 and 1 of the source. -/
inductive GbhState where
  | unsupported | notAsked | serves
deriving DecidableEq, Repr

/-- The answers of `block_hash_fn`. -/
inductive BlockHashReply where
  | ok (hash : String)
  | unsupported
  | failed
deriving DecidableEq, Repr

def pplnsMaturityConfs : Int := 100
def blockFinalDepth : Int := 100
def reconcileMaxPerTick : Nat := 16

/-- `strcasecmp(a, b) == 0`. -/
def sameHash (a b : String) : Bool := a.toList.map Char.toLower = b.toList.map Char.toLower

structure PassConfig where
  pplns : Bool
  feeBps : Int
deriving DecidableEq, Repr

structure Checked where
  settled : Bool
  gbh : GbhState
  checkedViaNode : Nat
deriving DecidableEq, Repr

/-- The loop over the candidates of one pass. -/
def checkCandidates (getBlockHash : Int → BlockHashReply) (tipHeight : Int) :
    Checked → Connection → List BlockCandidate → Checked × Connection
  | checked, c, [] => (checked, c)
  | checked, c, candidate :: rest =>
    match getBlockHash candidate.height with
    | .unsupported => ({ checked with gbh := .unsupported }, c)
    | .failed => ({ checked with settled := true }, c)
    | .ok have_ =>
      let standing := sameHash (buffer 80 have_) candidate.hash
      let c :=
        c.write (storeSetBlockStatus candidate.hash (if standing then .confirmed else .orphaned)
        (if standing then tipHeight - candidate.height + 1 else 0) (some .node))
      checkCandidates getBlockHash tipHeight
        { checked with gbh := .serves, checkedViaNode := checked.checkedViaNode + 1 } c rest

/-- The first half of the pass: the statuses. -/
def settleStatuses (getBlockHash : Int → BlockHashReply) (tipHeight : Int) (gbh : GbhState)
    (c : Connection) : Checked × Connection :=
  let (checked, c) :=
    if gbh = .unsupported then (⟨false, gbh, 0⟩, c)
    else
      let (checked, c) := checkCandidates getBlockHash tipHeight ⟨false, gbh, 0⟩ c
        (storeListUnresolvedBlocks tipHeight blockFinalDepth reconcileMaxPerTick c.db)
      (if checked.gbh = .serves then { checked with settled := true } else checked, c)
  (checked, if checked.settled then c
    else c.write (fun db => (storeReconcileBlocksFromTemplates tipHeight db).2))

structure PassResult where
  checkedViaNode : Nat
  ranTemplatesPass : Bool
  fractions : FractionTotals
  distribution : Option Distribution
deriving DecidableEq, Repr

def reconcileBlocksPass (cfg : PassConfig) (oracle : Oracle) (getBlockHash : Int → BlockHashReply)
    (tipHeight : Int) (gbh : GbhState) (c : Connection) : PassResult × GbhState × Connection :=
  if tipHeight ≤ 0 then (⟨0, false, ⟨0, 0⟩, none⟩, gbh, c)
  else
    let (checked, c) := settleStatuses getBlockHash tipHeight gbh c
    let (fractions, c) := storeSettleBlockFractions oracle c
    let fractions := fractions.getD ⟨0, 0⟩
    if cfg.pplns then
      let (distribution, c) := storePplnsDistribute oracle pplnsMaturityConfs cfg.feeBps c
      (⟨checked.checkedViaNode, !checked.settled, fractions, some distribution⟩, checked.gbh, c)
    else (⟨checked.checkedViaNode, !checked.settled, fractions, none⟩, checked.gbh, c)

end SimplePool.Reconcile
