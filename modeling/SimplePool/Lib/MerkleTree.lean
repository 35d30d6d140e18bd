import Mathlib.Data.List.Basic

/-! Hash trees over any pair function. A level with an odd number of nodes pairs its
last node with itself, and the levels are halved until one node is left. -/
namespace MerkleTree

variable {α : Type} (pair : α → α → α)

/-- The level above. -/
def parents : List α → List α
  | x :: y :: rest => pair x y :: parents rest
  | [x] => [pair x x]
  | [] => []

theorem length_parents (level : List α) : (parents pair level).length = (level.length + 1) / 2 := by
  fun_induction parents pair level with
  | case1 x y rest ih =>
    simp only [List.length_cons, ih]
    omega
  | case2 x => simp
  | case3 => simp

/-- A node above is made of the two nodes below it, or twice of the last one. -/
theorem getElem?_parents (level : List α) (i : Nat) :
    (parents pair level)[i]? = level[2 * i]?.map (fun x => pair x (level[2 * i + 1]?.getD x)) := by
  fun_induction parents pair level generalizing i with
  | case1 x y rest ih =>
    cases i with
    | zero => rfl
    | succ i =>
      have even : 2 * (i + 1) = 2 * i + 1 + 1 := by omega
      have odd : 2 * (i + 1) + 1 = 2 * i + 1 + 1 + 1 := by omega
      simp only [List.getElem?_cons_succ, ih, even]
  | case2 x =>
    cases i with
    | zero => rfl
    | succ i => simp
  | case3 => simp

/-- The root of a tree, from its leaves. No leaves, no root. -/
def root : List α → Option α
  | [] => none
  | [x] => some x
  | x :: y :: rest => root (parents pair (x :: y :: rest))
termination_by level => level.length
decreasing_by
  rw [length_parents]
  simp only [List.length_cons]
  omega

/-- What the first leaf meets on its way up, given the leaves after it. -/
def siblings : List α → List α
  | [] => []
  | y :: rest => y :: siblings (parents pair rest)
termination_by rest => rest.length
decreasing_by
  rw [length_parents]
  simp only [List.length_cons]
  omega

/-- The siblings of the first leaf do not depend on it, and lead from it to the root. -/
theorem root_cons (x : α) (rest : List α) :
    root pair (x :: rest) = some ((siblings pair rest).foldl pair x) := by
  fun_induction siblings pair rest generalizing x with
  | case1 => simp only [root, List.foldl_nil]
  | case2 y rest ih =>
    rw [root, parents, ih, List.foldl_cons]

end MerkleTree
