import Mathlib.Data.Nat.Log
import Mathlib.Tactic.Ring

/-!
# Merkle trees with repeated ends

A tree over any number of leaves. Where a level has an odd number of nodes the last one is paired with itself.
-/

namespace FullNode.MerkleTree

open List

variable {α : Type} {hash : α → α → α} {d : α} {xs ys : List α} {n h p : Nat}

/-! ## Widths -/

def width (n h : Nat) : Nat := (n + 2 ^ h - 1) / 2 ^ h

@[simp] theorem width_zero : width n 0 = n := by
  simp [width]

theorem width_le_iff (k : Nat) : width n h ≤ k ↔ n ≤ k * 2 ^ h := by
  have hpos : 0 < 2 ^ h := Nat.two_pow_pos h
  unfold width
  rw [← Nat.lt_succ_iff, Nat.div_lt_iff_lt_mul hpos, Nat.succ_mul]
  omega

theorem lt_width_iff : p < width n h ↔ p * 2 ^ h < n := by
  rw [← Nat.not_le, width_le_iff, Nat.not_le]

theorem width_succ : width n (h + 1) = (width n h + 1) / 2 := by
  apply Nat.le_antisymm
  · rw [width_le_iff]
    have hhalf : width n h ≤ (width n h + 1) / 2 * 2 := by omega
    calc n ≤ width n h * 2 ^ h := (width_le_iff _).mp le_rfl
      _ ≤ (width n h + 1) / 2 * 2 * 2 ^ h := Nat.mul_le_mul_right _ hhalf
      _ = (width n h + 1) / 2 * 2 ^ (h + 1) := by ring
  · have hle : width n h ≤ 2 * width n (h + 1) := by
      rw [width_le_iff]
      calc n ≤ width n (h + 1) * 2 ^ (h + 1) := (width_le_iff _).mp le_rfl
        _ = 2 * width n (h + 1) * 2 ^ h := by ring
    omega

theorem left_lt_width (hp : p < width n (h + 1)) : p * 2 < width n h := by
  rw [width_succ] at hp
  omega

theorem width_half : width ((n + 1) / 2) h = width n (h + 1) := by
  induction h with
  | zero => rw [width_zero, width_succ, width_zero]
  | succ h ih => rw [width_succ, ih, ← width_succ]

def height (n : Nat) : Nat := Nat.clog 2 n

theorem height_le_iff : height n ≤ h ↔ width n h ≤ 1 := by
  unfold height
  rw [Nat.clog_le_iff_le_pow (by omega), width_le_iff, Nat.one_mul]

theorem height_half (hn : 1 < n) : height n = height ((n + 1) / 2) + 1 := by
  apply Nat.le_antisymm
  · rw [height_le_iff, ← width_half, ← height_le_iff]
  · cases hheight : height n with
    | zero =>
      have hle := height_le_iff.mp hheight.le
      rw [width_zero] at hle
      omega
    | succ k =>
      apply Nat.succ_le_succ
      rw [height_le_iff, width_half, ← height_le_iff, hheight]

/-! ## Nodes and levels -/

def node (hash : α → α → α) (d : α) (xs : List α) : Nat → Nat → α
  | 0, p => xs.getD p d
  | h + 1, p =>
    hash (node hash d xs h (2 * p))
      (if 2 * p + 1 < width xs.length h then node hash d xs h (2 * p + 1) else node hash d xs h (2 * p))

def level (hash : α → α → α) : List α → List α
  | [] => []
  | [last] => [hash last last]
  | left :: right :: rest => hash left right :: level hash rest

theorem level_length : (level hash xs).length = (xs.length + 1) / 2 := by
  fun_induction level hash xs with
  | case1 => simp
  | case2 => simp
  | case3 left right rest ih =>
    rw [length_cons, ih, length_cons, length_cons]
    omega

theorem level_getD (hp : 2 * p < xs.length) : (level hash xs).getD p d =
    hash (xs.getD (2 * p) d) (if 2 * p + 1 < xs.length then xs.getD (2 * p + 1) d else xs.getD (2 * p) d) := by
  fun_induction level hash xs generalizing p with
  | case1 => simp at hp
  | case2 last =>
    obtain rfl : p = 0 := by
      rw [length_singleton] at hp
      omega
    simp
  | case3 left right rest ih =>
    cases p with
    | zero => simp
    | succ p =>
      rw [length_cons, length_cons] at hp ⊢
      rw [show 2 * (p + 1) = 2 * p + 1 + 1 by ring, getD_cons_succ, ih (by omega)]
      simp only [getD_cons_succ, Nat.add_lt_add_iff_right]

theorem node_level (hp : p < width xs.length (h + 1)) : node hash d (level hash xs) h p = node hash d xs (h + 1) p := by
  induction h generalizing p with
  | zero =>
    rw [lt_width_iff] at hp
    unfold node node
    rw [level_getD (by omega), width_zero]
  | succ h ih =>
    have hleft : 2 * p < width xs.length (h + 1) := by
      rw [width_succ] at hp
      omega
    rw [node, node, level_length, width_half, ih hleft]
    split
    · next hright => rw [ih hright]
    · rfl

/-! ## What is hashed -/

/-- `a` and `b` are hashed together in the tree over `xs`. -/
def Joins (hash : α → α → α) (d : α) (xs : List α) (a b : α) : Prop :=
  ∃ h p, 1 < width xs.length h ∧ 2 * p < width xs.length h ∧ a = node hash d xs h (2 * p) ∧
    b = if 2 * p + 1 < width xs.length h then node hash d xs h (2 * p + 1) else node hash d xs h (2 * p)

theorem Joins.of_level {a b : α} (h : Joins hash d (level hash xs) a b) : Joins hash d xs a b := by
  obtain ⟨h, p, hwide, hp, rfl, rfl⟩ := h
  rw [level_length, width_half] at hwide hp
  refine ⟨h + 1, p, hwide, hp, node_level hp, ?_⟩
  rw [level_length, width_half]
  split
  · next hright => rw [node_level hright]
  · rw [node_level hp]

/-- Every node below the root is hashed with one at its right. -/
theorem joins_edge (hash : α → α → α) (d : α) (hh : h < height xs.length) :
    ∃ b, Joins hash d xs (node hash d xs h 0) b ∧ node hash d xs (h + 1) 0 = hash (node hash d xs h 0) b := by
  have hwide : 1 < width xs.length h := by
    rw [← Nat.not_le, ← height_le_iff]
    omega
  exact ⟨_, ⟨h, 0, hwide, by omega, rfl, rfl⟩, rfl⟩

def pairs : List α → List (α × α)
  | [] => []
  | [last] => [(last, last)]
  | left :: right :: rest => (left, right) :: pairs rest

variable {ab : α × α}

theorem mem_pairs (h : ab ∈ pairs xs) : ∃ p, 2 * p < xs.length ∧ ab.1 = xs.getD (2 * p) d ∧
    ab.2 = if 2 * p + 1 < xs.length then xs.getD (2 * p + 1) d else xs.getD (2 * p) d := by
  fun_induction pairs xs with
  | case1 => cases h
  | case2 last =>
    rw [mem_singleton] at h
    exact ⟨0, by simp [h]⟩
  | case3 left right rest ih =>
    rcases mem_cons.mp h with rfl | h
    · exact ⟨0, by simp⟩
    · obtain ⟨p, _, hleft, hright⟩ := ih h
      refine ⟨p + 1, ?_, ?_, ?_⟩
      · rw [length_cons, length_cons]
        omega
      · rw [show 2 * (p + 1) = 2 * p + 1 + 1 by ring, getD_cons_succ, getD_cons_succ, hleft]
      · rw [show 2 * (p + 1) = 2 * p + 1 + 1 by ring, hright]
        simp only [getD_cons_succ, length_cons, Nat.add_lt_add_iff_right]

theorem joins_of_mem_pairs (hlong : 1 < xs.length) (h : ab ∈ pairs xs) : Joins hash d xs ab.1 ab.2 := by
  obtain ⟨p, _, hleft, hright⟩ := mem_pairs (d := d) h
  refine ⟨0, p, by rwa [width_zero], by rwa [width_zero], hleft, ?_⟩
  rw [width_zero]
  exact hright

end FullNode.MerkleTree
