import FullNode.Merkle
import FullNode.PoolBlocks

/-!
# The merkle root commits to the list

Where no two pairs of the two trees have the same hash and no leaf is a hash of one, lists without
equal neighbours have different roots.
-/

namespace FullNode.Merkle

open MerkleTree List

variable {hash : Uint256 → Uint256 → Uint256} {xs ys : List Uint256} {h p : Nat} {a b : Uint256}

/-! ## The root as a node -/

variable {rounds : Nat} {mutation : Bool} {P : Uint256 → Uint256 → Prop}

theorem rootLoop_fst (hrounds : xs.length ≤ rounds) (hpos : xs ≠ []) :
    (rootLoop hash rounds xs mutation).1 = node hash 0 xs (height xs.length) 0 := by
  induction rounds generalizing xs mutation with
  | zero => exact absurd (eq_nil_of_length_eq_zero (Nat.le_zero.mp hrounds)) hpos
  | succ rounds ih =>
    have hlength := length_pos_iff.mpr hpos
    unfold rootLoop
    split
    · next hlong =>
      have hlevel : (level hash xs).length = (xs.length + 1) / 2 := level_length
      have hwidth : 0 < width xs.length (height ((xs.length + 1) / 2) + 1) := by
        rw [lt_width_iff]
        omega
      rw [ih (by omega) (by rw [← length_pos_iff]; omega), hlevel, height_half hlong, node_level hwidth]
    · next hshort =>
      obtain ⟨_, rfl⟩ := length_eq_one_iff.mp (by omega : xs.length = 1)
      rfl

theorem computeMerkleRoot_fst (hpos : xs ≠ []) : (computeMerkleRoot hash xs).1 = node hash 0 xs (height xs.length) 0 :=
  rootLoop_fst le_rfl hpos

theorem rootLoop_enough {rounds' : Nat} (hrounds : xs.length ≤ rounds) (hrounds' : xs.length ≤ rounds') :
    rootLoop hash rounds xs mutation = rootLoop hash rounds' xs mutation := by
  induction rounds generalizing xs mutation rounds' with
  | zero =>
    obtain rfl := eq_nil_of_length_eq_zero (Nat.le_zero.mp hrounds)
    cases rounds' <;> rfl
  | succ rounds ih =>
    cases rounds' with
    | zero =>
      obtain rfl := eq_nil_of_length_eq_zero (Nat.le_zero.mp hrounds')
      rfl
    | succ rounds' =>
      unfold rootLoop
      split
      · next hlong =>
        have hlevel : (level hash xs).length = (xs.length + 1) / 2 := level_length
        exact ih (by omega) (by omega)
      · rfl

theorem rootLoop_snd (mutation : Bool) :
    (rootLoop hash rounds xs mutation).2 = (mutation || (rootLoop hash rounds xs false).2) := by
  induction rounds generalizing xs mutation with
  | zero => simp [rootLoop]
  | succ rounds ih =>
    unfold rootLoop
    split
    · rw [ih (mutation || _), ih (false || _)]
      simp [Bool.or_assoc]
    · simp

theorem not_mutated (hlong : 1 < xs.length) (h : (computeMerkleRoot hash xs).2 = false) :
    adjacentEqual xs = false ∧ (computeMerkleRoot hash (level hash xs)).2 = false := by
  have hlevel : (level hash xs).length = (xs.length + 1) / 2 := level_length
  have hround : computeMerkleRoot hash xs =
      rootLoop hash (level hash xs).length (level hash xs) (adjacentEqual xs) := by
    unfold computeMerkleRoot
    obtain ⟨n, hn⟩ : ∃ n, xs.length = n + 1 := ⟨xs.length - 1, by omega⟩
    rw [hn, rootLoop, if_pos (by omega), Bool.false_or]
    exact rootLoop_enough (by omega) le_rfl
  rw [hround, rootLoop_snd, Bool.or_eq_false_iff] at h
  exact h

/-! ## Injectivity -/

variable (hinj : ∀ a b c d, P a b → P c d → hash a b = hash c d → a = c ∧ b = d)
include hinj

theorem level_inj (hxs : ∀ ab ∈ pairs xs, P ab.1 ab.2) (hys : ∀ ab ∈ pairs ys, P ab.1 ab.2)
    (hx : adjacentEqual xs = false) (hy : adjacentEqual ys = false) (hlevel : level hash xs = level hash ys) :
    xs = ys := by
  fun_induction level hash xs generalizing ys with
  | case1 =>
    cases ys with
    | nil => rfl
    | cons y ys =>
      have hlength := congrArg length hlevel
      rw [level_length] at hlength
      simp at hlength
      omega
  | case2 last =>
    rcases ys with _ | ⟨y, _ | ⟨y', ys⟩⟩
    · cases hlevel
    · have hpair := hinj _ _ _ _ (hxs _ mem_cons_self) (hys _ mem_cons_self) (cons.inj hlevel).1
      rw [show last = y from hpair.1]
    · obtain ⟨hhead, -⟩ := cons.inj hlevel
      have hpair := hinj _ _ _ _ (hxs _ mem_cons_self) (hys _ mem_cons_self) hhead
      simp only at hpair
      -- the one list repeats its last hash, so the other has it twice
      simp [adjacentEqual, ← hpair.1, ← hpair.2] at hy
  | case3 left right rest ih =>
    rcases ys with _ | ⟨y, _ | ⟨y', ys⟩⟩
    · cases hlevel
    · obtain ⟨hhead, -⟩ := cons.inj hlevel
      have hpair := hinj _ _ _ _ (hxs _ mem_cons_self) (hys _ mem_cons_self) hhead
      simp only at hpair
      simp [adjacentEqual, hpair.1, hpair.2] at hx
    · obtain ⟨hhead, htail⟩ := cons.inj hlevel
      have hpair := hinj _ _ _ _ (hxs _ mem_cons_self) (hys _ mem_cons_self) hhead
      simp only [adjacentEqual, Bool.or_eq_false_iff] at hx hy
      have hrest := ih (fun ab hab => hxs ab (mem_cons_of_mem _ hab)) (fun ab hab => hys ab (mem_cons_of_mem _ hab))
        hx.2 hy.2 htail
      rw [hrest, show left = y from hpair.1, show right = y' from hpair.2]

section

variable (hxs : ∀ a b, Joins hash 0 xs a b → P a b)
include hxs

section

variable (hys : ∀ a b, Joins hash 0 ys a b → P a b)
include hys

theorem node_eq_of_spine (d : Nat) (hx : h ≤ height xs.length)
    (hy : h + d ≤ height ys.length) (heq : node hash 0 xs h 0 = node hash 0 ys (h + d) 0) :
    node hash 0 xs 0 0 = node hash 0 ys d 0 := by
  induction h with
  | zero => rwa [Nat.zero_add] at heq
  | succ h ih =>
    obtain ⟨b, hb, hxnode⟩ := joins_edge hash 0 (show h < height xs.length by omega)
    obtain ⟨_, hc, hynode⟩ := joins_edge hash 0 (show h + d < height ys.length by omega)
    rw [Nat.add_right_comm, hxnode, hynode] at heq
    exact ih (by omega) (by omega) (hinj _ _ _ _ (hxs _ _ hb) (hys _ _ hc) heq).1

theorem height_le_of_root (hpos : xs ≠ [])
    (hleaf : ∀ x ∈ xs, ∀ a b, P a b → hash a b ≠ x)
    (hroot : node hash 0 xs (height xs.length) 0 = node hash 0 ys (height ys.length) 0) :
    height ys.length ≤ height xs.length := by
  by_contra hlt
  obtain ⟨d, hd⟩ : ∃ d, height ys.length = height xs.length + (d + 1) :=
      ⟨height ys.length - height xs.length - 1, by omega⟩
  rw [hd] at hroot
  have hspine := node_eq_of_spine hinj hxs hys (d + 1) le_rfl (by omega) hroot
  obtain ⟨b, hb, hnode⟩ := joins_edge hash 0 (show d < height ys.length by omega)
  rw [hnode] at hspine
  apply hleaf (node hash 0 xs 0 0) _ _ _ (hys _ _ hb) hspine.symm
  obtain ⟨x, xs, rfl⟩ := exists_cons_of_ne_nil hpos
  exact mem_cons_self

theorem eq_of_height (hx : xs ≠ []) (hy : ys ≠ [])
    (hmx : (computeMerkleRoot hash xs).2 = false) (hmy : (computeMerkleRoot hash ys).2 = false)
    (hxheight : height xs.length = h) (hyheight : height ys.length = h)
    (hroot : node hash 0 xs h 0 = node hash 0 ys h 0) : xs = ys := by
  induction h generalizing xs ys with
  | zero =>
    have hone : ∀ {zs : List Uint256}, height zs.length = 0 → zs ≠ [] → ∃ z, zs = [z] := by
      intro zs hheight hzs
      have hle := height_le_iff.mp hheight.le
      rw [width_zero] at hle
      have hlength := length_pos_iff.mpr hzs
      exact length_eq_one_iff.mp (by omega)
    obtain ⟨_, rfl⟩ := hone hxheight hx
    obtain ⟨_, rfl⟩ := hone hyheight hy
    simpa [node] using hroot
  | succ h ih =>
    have hstep : ∀ {zs : List Uint256}, height zs.length = h + 1 → 1 < zs.length ∧ height (level hash zs).length = h ∧
        level hash zs ≠ [] ∧ node hash 0 (level hash zs) h 0 = node hash 0 zs (h + 1) 0 := by
      intro zs hheight
      have hlong : 1 < zs.length := by
        rw [← Nat.not_le, ← width_zero (n := zs.length), ← height_le_iff]
        omega
      have hhalf := height_half hlong
      have hlevel : (level hash zs).length = (zs.length + 1) / 2 := level_length
      refine ⟨hlong, by rw [hlevel]; omega, by rw [← length_pos_iff]; omega, node_level ?_⟩
      rw [lt_width_iff]
      omega
    obtain ⟨hxlong, hxheight', hx', hxnode⟩ := hstep hxheight
    obtain ⟨hylong, hyheight', hy', hynode⟩ := hstep hyheight
    obtain ⟨hxadj, hmx'⟩ := not_mutated hxlong hmx
    obtain ⟨hyadj, hmy'⟩ := not_mutated hylong hmy
    have hlevel := ih (fun a b hab => hxs a b hab.of_level) (fun a b hab => hys a b hab.of_level) hx' hy' hmx'
      hmy' hxheight' hyheight' (by rw [hxnode, hynode, hroot])
    exact level_inj hinj (fun ab hab => hxs _ _ (joins_of_mem_pairs hxlong hab))
      (fun ab hab => hys _ _ (joins_of_mem_pairs hylong hab)) hxadj hyadj hlevel

end

end

omit hinj

/-- Lists of one root are equal, if their pairs do not collide. -/
theorem computeMerkleRoot_inj (hash : Uint256 → Uint256 → Uint256) (hx : xs ≠ []) (hy : ys ≠ [])
    (hinj : ∀ a b c d, Joins hash 0 xs a b ∨ Joins hash 0 ys a b → Joins hash 0 xs c d ∨ Joins hash 0 ys c d →
      hash a b = hash c d → a = c ∧ b = d)
    (hleaf : ∀ x, x ∈ xs ∨ x ∈ ys → ∀ a b, Joins hash 0 xs a b ∨ Joins hash 0 ys a b → hash a b ≠ x)
    (hmx : (computeMerkleRoot hash xs).2 = false) (hmy : (computeMerkleRoot hash ys).2 = false)
    (hroot : (computeMerkleRoot hash xs).1 = (computeMerkleRoot hash ys).1) : xs = ys := by
  rw [computeMerkleRoot_fst hx, computeMerkleRoot_fst hy] at hroot
  have hxs : ∀ a b, Joins hash 0 xs a b → Joins hash 0 xs a b ∨ Joins hash 0 ys a b := fun a b h => .inl h
  have hys : ∀ a b, Joins hash 0 ys a b → Joins hash 0 xs a b ∨ Joins hash 0 ys a b := fun a b h => .inr h
  have hle := height_le_of_root hinj hxs hys hx (fun x hmem => hleaf x (.inl hmem)) hroot
  have hge := height_le_of_root hinj hys hxs hy (fun y hmem => hleaf y (.inr hmem)) hroot.symm
  have hheight : height ys.length = height xs.length := Nat.le_antisymm hle hge
  rw [hheight] at hroot
  exact eq_of_height hinj hxs hys hx hy hmx hmy rfl hheight hroot

theorem joins_two {x y : Uint256} (h : Joins hash 0 [x, y] a b) : a = x ∧ b = y := by
  obtain ⟨h, p, hwide, hp, rfl, rfl⟩ := h
  have hzero : h = 0 := by
    rw [lt_width_iff, length_cons, length_singleton] at hwide
    by_contra hpos
    have hpow : 2 ^ 1 ≤ 2 ^ h := Nat.pow_le_pow_right (by omega) (by omega)
    omega
  subst hzero
  rw [width_zero, length_cons, length_singleton] at hp
  obtain rfl : p = 0 := by omega
  rw [width_zero]
  exact ⟨rfl, rfl⟩

/-- The root of two leaves, with the hash of the node. -/
theorem two_leaves_committed : (computeMerkleRoot Pool.hashPair [1, 2]).2 = false ∧
    ([1, 2] : List Uint256) = [1, 2] := by
  have hpair : ∀ {a b}, Joins Pool.hashPair 0 [1, 2] a b ∨ Joins Pool.hashPair 0 [1, 2] a b → a = 1 ∧ b = 2 :=
    fun h => h.elim joins_two joins_two
  refine ⟨by decide, ?_⟩
  refine computeMerkleRoot_inj Pool.hashPair (by simp) (by simp) ?_ ?_ (by decide) (by decide) rfl
  · intro a b c d hab hcd _
    obtain ⟨rfl, rfl⟩ := hpair hab
    obtain ⟨rfl, rfl⟩ := hpair hcd
    exact ⟨rfl, rfl⟩
  · intro x hx a b hab
    obtain ⟨rfl, rfl⟩ := hpair hab
    have hlarge : Nat.ble (Pool.hashPair 1 2).toNat 2 = false := by decide +kernel
    have hsmall : ∀ x ∈ ([1, 2] : List Uint256), Nat.ble x.toNat 2 = true := by simp
    intro hleaf
    rw [hleaf, hsmall x (hx.elim id id)] at hlarge
    cases hlarge

-- the lists of CVE-2012-2459, for any hash
example : (computeMerkleRoot hash [1, 2, 3, 4, 5, 6]).1 = (computeMerkleRoot hash [1, 2, 3, 4, 5, 6, 5, 6]).1 := rfl

end FullNode.Merkle
