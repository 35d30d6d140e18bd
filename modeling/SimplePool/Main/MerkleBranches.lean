import SimplePool.Lib.MerkleTree
import SimplePool.Stratum.Share

/-! The branches a job hands to miners, as main.c computes them from the template's
transaction ids, and the root that share.c folds them into. -/
namespace SimplePool.Main
open Crypto Stratum MerkleTree

variable {α : Type} (pair : α → α → α)

/-- One write of the pass over a level of `n` nodes. -/
def pairSlot (n : Nat) (level : Nat → α) (i : Nat) : Nat → α :=
  Function.update level i
    (pair (level (2 * i)) (if 2 * i + 1 < n then level (2 * i + 1) else level (2 * i)))

/-- The pass writes the next level over the one it reads. -/
def buildNextLevel (n : Nat) (level : Nat → α) : Nat → α :=
  (List.range ((n + 1) / 2)).foldl (pairSlot pair n) level

def branchLoop (n : Nat) (level : Nat → α) : List α :=
  if 1 < n then level 1 :: branchLoop ((n + 1) / 2) (buildNextLevel pair n level)
  else []
termination_by n

/-- The buffer is zeroed, which leaves the placeholder in slot 0. -/
def computeMerkleBranchesForIdx0 (zero : α) (txids : List α) : List α :=
  let n := txids.length + 1
  if n = 1 then [] else branchLoop pair n (fun i => (zero :: txids).getD i zero)

/-- After `k` writes the slots below `k` hold the next level, and the ones the pass has
still to read are as they were. -/
theorem foldl_pairSlot (n : Nat) (level : Nat → α) (k j : Nat) :
    (List.range k).foldl (pairSlot pair n) level j =
      if j < k then pair (level (2 * j)) (if 2 * j + 1 < n then level (2 * j + 1)
        else level (2 * j)) else level j := by
  induction k generalizing j with
  | zero => rfl
  | succ k ih =>
    rw [List.range_succ, List.foldl_append, List.foldl_cons, List.foldl_nil, pairSlot]
    by_cases here : j = k
    · subst here
      have even : ¬ 2 * j < j := by omega
      have odd : ¬ 2 * j + 1 < j := by omega
      simp only [Function.update_self, ih, even, odd, if_false, Nat.lt_succ_self, if_true]
    · have below : j < k + 1 ↔ j < k := by omega
      simp only [Function.update_of_ne here, ih, below]

/-- The nodes a buffer holds in its first `n` slots. -/
def nodes (n : Nat) (level : Nat → α) : List α := (List.range n).map level

theorem getElem?_nodes (n : Nat) (level : Nat → α) (i : Nat) :
    (nodes n level)[i]? = if i < n then some (level i) else none := by
  rw [nodes, List.getElem?_map]
  split
  next inside => rw [List.getElem?_range inside, Option.map_some]
  next outside =>
    rw [List.getElem?_eq_none (by simpa using outside), Option.map_none]

theorem nodes_buildNextLevel (n : Nat) (level : Nat → α) :
    nodes ((n + 1) / 2) (buildNextLevel pair n level) = parents pair (nodes n level) := by
  apply List.ext_getElem?
  intro i
  rw [getElem?_parents, getElem?_nodes, getElem?_nodes, getElem?_nodes, buildNextLevel,
    foldl_pairSlot]
  by_cases inside : i < (n + 1) / 2
  · have even : 2 * i < n := by omega
    rw [if_pos inside, if_pos inside, if_pos even, Option.map_some]
    split <;> rfl
  · have outside : ¬ 2 * i < n := by omega
    rw [if_neg inside, if_neg outside, Option.map_none]

/-- The loop records what the first of its nodes meets, whatever that node is. -/
theorem branchLoop_eq_siblings (n : Nat) (level : Nat → α) (first : α) (rest : List α)
    (held : nodes n level = first :: rest) : branchLoop pair n level = siblings pair rest := by
  have size : n = rest.length + 1 := by simpa [nodes] using congrArg List.length held
  fun_induction branchLoop pair n level generalizing first rest with
  | case1 n level more ih =>
    cases rest with
    | nil => simp at size; omega
    | cons second rest =>
      have one : level 1 = second := by
        have slot := getElem?_nodes n level 1
        rw [held, if_pos more] at slot
        exact (Option.some.inj slot).symm
      have above := nodes_buildNextLevel pair n level
      rw [held, parents] at above
      have half : (n + 1) / 2 = (parents pair rest).length + 1 := by
        simpa [nodes] using congrArg List.length above
      rw [siblings, one, ih _ _ above half]
  | case2 n level done =>
    obtain rfl : rest = [] := List.eq_nil_of_length_eq_zero (by omega)
    rw [siblings]

theorem computeMerkleBranchesForIdx0_eq (zero : α) (txids : List α) :
    computeMerkleBranchesForIdx0 pair zero txids = siblings pair txids := by
  rw [computeMerkleBranchesForIdx0]
  split
  next alone =>
    obtain rfl : txids = [] := List.eq_nil_of_length_eq_zero (by omega)
    rw [siblings]
  next more =>
    apply branchLoop_eq_siblings pair _ _ zero
    apply List.ext_getElem?
    intro i
    rw [getElem?_nodes]
    split
    next inside =>
      have present : i < (zero :: txids).length := by simpa using inside
      rw [List.getD, List.getElem?_eq_getElem present, Option.getD_some]
    next outside => rw [List.getElem?_eq_none (by simpa using outside)]

/-- The hash of two nodes side by side. -/
def dsha256Pair (left right : Bytes32) : Bytes32 :=
  ⟨dsha256 (left.val ++ right.val), by rw [dsha256, sha256_length]⟩

theorem merkleRootFromBranches_eq (leaf : Bytes32) (branches : List Bytes32) :
    merkleRootFromBranches leaf.val branches = (branches.foldl dsha256Pair leaf).val := by
  induction branches generalizing leaf with
  | nil => rfl
  | cons branch rest ih =>
    rw [List.foldl_cons, ← ih]
    rfl

/-- Folding the first leaf through the branches gives the root of the whole tree: for any
pair function, and for the double hash that share.c folds with. -/
theorem branches_reconstruct_root :
    (∀ {α : Type} (pair : α → α → α) (zero coinbase : α) (txids : List α),
      root pair (coinbase :: txids) =
        some ((computeMerkleBranchesForIdx0 pair zero txids).foldl pair coinbase)) ∧
    ∀ (zero coinbase : Bytes32) (txids : List Bytes32),
      (root dsha256Pair (coinbase :: txids)).map Subtype.val =
        some (merkleRootFromBranches coinbase.val
          (computeMerkleBranchesForIdx0 dsha256Pair zero txids)) := by
  constructor
  · intro α pair zero coinbase txids
    rw [computeMerkleBranchesForIdx0_eq, root_cons]
  · intro zero coinbase txids
    rw [computeMerkleBranchesForIdx0_eq, root_cons, merkleRootFromBranches_eq, Option.map_some]

end SimplePool.Main
