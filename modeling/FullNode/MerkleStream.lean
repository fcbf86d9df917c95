import FullNode.MerkleRoot

/-! # The streaming computation of merkle roots -/

namespace FullNode.Merkle

open MerkleTree List Nat

variable {hash : Uint256 → Uint256 → Uint256} {leaves : List Uint256} {fPath fMutated : Bool} {p k l count fuel : Nat}
  {inner : Nat → Uint256} {matchlevel : Option Nat} {c : Climb} {path : List Uint256} {n j : Nat}

/-! ## Paths -/

/-- The other child of the node above the leaf at `p`. -/
def sibling (hash : Uint256 → Uint256 → Uint256) (leaves : List Uint256) (p l : Nat) : Uint256 :=
  if p / 2 ^ l % 2 = 1 then node hash 0 leaves l (p / 2 ^ l - 1)
  else if p / 2 ^ l + 1 < width leaves.length l then node hash 0 leaves l (p / 2 ^ l + 1)
  else node hash 0 leaves l (p / 2 ^ l)

def siblings (hash : Uint256 → Uint256 → Uint256) (leaves : List Uint256) (p l : Nat) : List Uint256 :=
  (List.range l).map (sibling hash leaves p)

@[simp] theorem siblings_zero : siblings hash leaves p 0 = [] := rfl

theorem siblings_succ : siblings hash leaves p (l + 1) = siblings hash leaves p l ++ [sibling hash leaves p l] := by
  simp [siblings, range_succ]

theorem foldPath_concat {s h : Uint256} : foldPath hash (path ++ [s]) h p =
    if p / 2 ^ path.length % 2 = 1 then hash s (foldPath hash path h p) else hash (foldPath hash path h p) s := by
  induction path generalizing h p with
  | nil => simp [foldPath]
  | cons t path ih =>
    rw [cons_append, foldPath, ih, foldPath, length_cons, Nat.pow_succ', Nat.div_div_eq_div_mul]

theorem foldPath_siblings (hp : p < leaves.length) :
    foldPath hash (siblings hash leaves p l) (leaves.getD p 0) p = node hash 0 leaves l (p / 2 ^ l) := by
  induction l with
  | zero => simp [foldPath, node]
  | succ l ih =>
    have hlength : (siblings hash leaves p l).length = l := by simp [siblings]
    rw [siblings_succ, foldPath_concat, hlength, ih, node, Nat.pow_succ, ← Nat.div_div_eq_div_mul]
    have hwidth : p / 2 ^ l < width leaves.length l := by
      rw [lt_width_iff]
      exact Nat.lt_of_le_of_lt (div_mul_le_self p (2 ^ l)) hp
    unfold sibling
    generalize p / 2 ^ l = q at hwidth
    rcases mod_two_eq_zero_or_one q with heven | hodd
    · rw [if_neg (by omega), if_neg (by omega), show 2 * (q / 2) = q by omega]
    · rw [if_pos hodd, if_pos hodd, show 2 * (q / 2) = q - 1 by omega, if_pos (by omega), show q - 1 + 1 = q by omega]

/-! ## Up -/

/-- `inner` has a subtree for every bit of `k`. -/
def Held (hash : Uint256 → Uint256 → Uint256) (leaves : List Uint256) (k : Nat) (inner : Nat → Uint256) : Prop :=
  ∀ j, k.testBit j = true → inner j = node hash 0 leaves j (k / 2 ^ j - 1)

/-- `c` is the last node of `count` leaves at its level. -/
structure Rising (hash : Uint256 → Uint256 → Uint256) (leaves : List Uint256) (k count : Nat) (c : Climb) : Prop where
  dvd : 2 ^ c.level ∣ count
  below : k < count
  close : count ≤ k + 2 ^ c.level
  within : count < leaves.length + 2 ^ c.level
  top : c.h = node hash 0 leaves c.level (count / 2 ^ c.level - 1)

section

variable (hc : Rising hash leaves k count c)
include hc

theorem Rising.div : k / 2 ^ c.level = count / 2 ^ c.level - 1 ∧ 0 < count / 2 ^ c.level := by
  obtain ⟨q, hq⟩ := hc.dvd
  have hbelow := hc.below
  have hclose := hc.close
  have hpos : 0 < 2 ^ c.level := Nat.two_pow_pos _
  have hqpos : 0 < q := by
    rcases Nat.eq_zero_or_pos q with rfl | h
    · omega
    · exact h
  obtain ⟨r, rfl⟩ : ∃ r, q = r + 1 := ⟨q - 1, by omega⟩
  rw [hq, Nat.mul_div_cancel_left _ hpos]
  refine ⟨?_, by omega⟩
  rw [mul_succ] at hq
  rw [Nat.add_sub_cancel]
  apply Nat.div_eq_of_lt_le
  · rw [Nat.mul_comm]
    omega
  · rw [succ_mul, Nat.mul_comm]
    omega

theorem Rising.pow_le : 2 ^ c.level ≤ count :=
  le_of_dvd (zero_lt_of_lt hc.below) hc.dvd

theorem Rising.level_lt (hcount : count < 2 ^ 32) : c.level < 32 :=
  (Nat.pow_lt_pow_iff_right (by omega)).mp (Nat.lt_of_le_of_lt hc.pow_le hcount)

end

theorem testBit_false : n.testBit j = false ↔ n / 2 ^ j % 2 = 0 := by
  rw [testBit_eq_decide_div_mod_eq, decide_eq_false_iff_not]
  omega

theorem testBit_true : n.testBit j = true ↔ n / 2 ^ j % 2 = 1 := by
  rw [testBit_eq_decide_div_mod_eq, decide_eq_true_eq]

theorem Rising.stepUp (fPath fMutated : Bool) (matchlevel : Option Nat) (hc : Rising hash leaves k count c)
    (hheld : Held hash leaves k inner) (hbit : count.testBit c.level = false) :
    inner c.level = node hash 0 leaves c.level (count / 2 ^ c.level - 2) ∧
      Rising hash leaves k count (stepUp hash fPath fMutated inner matchlevel c) := by
  obtain ⟨hdiv, _⟩ := hc.div
  have heven := testBit_false.mp hbit
  have hinner := hheld c.level (testBit_true.mpr (by omega))
  rw [hdiv, Nat.sub_sub] at hinner
  refine ⟨hinner, ?_⟩
  have hexact : count / 2 ^ c.level * 2 ^ c.level = count := Nat.div_mul_cancel hc.dvd
  have hhalf : count / 2 ^ (c.level + 1) = count / 2 ^ c.level / 2 := by
    rw [Nat.pow_succ, Nat.div_div_eq_div_mul]
  have hclose := hc.close
  have hwithin := hc.within
  have hle := hc.pow_le
  constructor
  · change 2 ^ (c.level + 1) ∣ count
    rw [Nat.pow_succ, ← hexact, Nat.mul_comm]
    exact Nat.mul_dvd_mul (dvd_of_mod_eq_zero heven) (dvd_refl _)
  · exact hc.below
  · change count ≤ k + 2 ^ (c.level + 1)
    rw [Nat.pow_succ]
    omega
  · change count < leaves.length + 2 ^ (c.level + 1)
    rw [Nat.pow_succ]
    omega
  · change hash (inner c.level) c.h = node hash 0 leaves (c.level + 1) (count / 2 ^ (c.level + 1) - 1)
    have hwidth : count / 2 ^ c.level - 1 < width leaves.length c.level := by
      rw [lt_width_iff, Nat.sub_mul, hexact]
      omega
    rw [hinner, hc.top, hhalf, node]
    generalize count / 2 ^ c.level = q at *
    rw [show 2 * (q / 2 - 1) = q - 2 by omega, show q - 2 + 1 = q - 1 by omega, if_pos hwidth]

theorem Rising.above (hc : Rising hash leaves k count c) (hbit : count.testBit c.level = true) {m : Nat}
    (hm : c.level < m) : count / 2 ^ m = k / 2 ^ m := by
  obtain ⟨hdiv, _⟩ := hc.div
  have hodd := testBit_true.mp hbit
  obtain ⟨d, rfl⟩ : ∃ d, m = c.level + 1 + d := ⟨m - c.level - 1, by omega⟩
  have hsplit : ∀ n, n / 2 ^ (c.level + 1 + d) = n / 2 ^ c.level / 2 / 2 ^ d := by
    intro n
    rw [Nat.pow_add, Nat.pow_succ, ← Nat.div_div_eq_div_mul, ← Nat.div_div_eq_div_mul]
  rw [hsplit, hsplit, hdiv, show (count / 2 ^ c.level - 1) / 2 = count / 2 ^ c.level / 2 by omega]

/-- The leaf at `p` is unread, or in the subtree from `l` on. -/
def Waits (hash : Uint256 → Uint256 → Uint256) (leaves : List Uint256) (p seen k l : Nat) (matchlevel : Option Nat)
    (path : List Uint256) : Prop :=
  matchlevel = none ∧ seen ≤ p ∧ path = [] ∨
    ∃ m, l ≤ m ∧ matchlevel = some m ∧ k.testBit m = true ∧ p / 2 ^ m = k / 2 ^ m - 1 ∧ path = siblings hash leaves p m

/-- The path of `p` is complete up to the subtree it is in. -/
def Follows (hash : Uint256 → Uint256 → Uint256) (leaves : List Uint256) (p seen k count : Nat)
    (matchlevel : Option Nat) (c : Climb) : Prop :=
  c.matchh = true ∧ p / 2 ^ c.level = count / 2 ^ c.level - 1 ∧ c.path = siblings hash leaves p c.level ∨
    c.matchh = false ∧ Waits hash leaves p seen k c.level matchlevel c.path

variable {seen : Nat} {s : Stream}

theorem Follows.stepUp (hf : Follows hash leaves p seen k count matchlevel c) (hc : Rising hash leaves k count c)
    (hheld : Held hash leaves k inner) (hbit : count.testBit c.level = false) :
    Follows hash leaves p seen k count matchlevel (stepUp hash true fMutated inner matchlevel c) := by
  obtain ⟨hinner, _⟩ := hc.stepUp true fMutated matchlevel hheld hbit
  obtain ⟨hdiv, _⟩ := hc.div
  have heven := testBit_false.mp hbit
  have hhalf : ∀ n, n / 2 ^ (c.level + 1) = n / 2 ^ c.level / 2 := by
    intro n
    rw [Nat.pow_succ, Nat.div_div_eq_div_mul]
  have hwidth : count / 2 ^ c.level - 1 < width leaves.length c.level := by
    have hwithin := hc.within
    have hle := hc.pow_le
    rw [lt_width_iff, Nat.sub_mul, Nat.div_mul_cancel hc.dvd]
    omega
  rcases hf with ⟨hmatch, hp, hpath⟩ | ⟨hmatch, hwaits⟩
  · -- the node at the left is the sibling
    left
    refine ⟨by simp [Merkle.stepUp, hmatch], ?_, ?_⟩
    · change p / 2 ^ (c.level + 1) = count / 2 ^ (c.level + 1) - 1
      rw [hhalf, hhalf, hp]
      omega
    · have hnew : (Merkle.stepUp hash true fMutated inner matchlevel c).path = c.path ++ [inner c.level] := by
        simp [Merkle.stepUp, hmatch]
      change _ = siblings hash leaves p (c.level + 1)
      rw [hnew, hpath, siblings_succ, sibling, if_pos (by omega), hp, hinner, Nat.sub_sub]
  · by_cases hlevel : matchlevel = some c.level
    · rcases hwaits with ⟨hnone, -, -⟩ | ⟨m, -, hm, _, hp, hpath⟩
      · rw [hnone] at hlevel
        cases hlevel
      · obtain rfl : m = c.level := Option.some.inj (hm.symm.trans hlevel)
        left
        refine ⟨by simp [Merkle.stepUp, hlevel], ?_, ?_⟩
        · change p / 2 ^ (c.level + 1) = count / 2 ^ (c.level + 1) - 1
          rw [hhalf, hhalf, hp, hdiv]
          omega
        · have hnew : (Merkle.stepUp hash true fMutated inner matchlevel c).path = c.path ++ [c.h] := by
            simp [Merkle.stepUp, hmatch, hlevel]
          change _ = siblings hash leaves p (c.level + 1)
          rw [hnew, hpath, siblings_succ, sibling, hp, hdiv, hc.top, if_neg (by omega),
            show count / 2 ^ c.level - 1 - 1 + 1 = count / 2 ^ c.level - 1 by omega, if_pos hwidth]
    · right
      refine ⟨by simp [Merkle.stepUp, hmatch, hlevel], ?_⟩
      have hpath : (Merkle.stepUp hash true fMutated inner matchlevel c).path = c.path := by
        simp [Merkle.stepUp, hmatch, hlevel]
      rw [hpath]
      rcases hwaits with hnone | ⟨m, hle, hm, hrest⟩
      · exact .inl hnone
      · refine .inr ⟨m, ?_, hm, hrest⟩
        have hne : m ≠ c.level := fun h => hlevel (h ▸ hm)
        change c.level + 1 ≤ m
        omega

theorem climb_spec (fPath fMutated : Bool) (matchlevel : Option Nat) (hheld : Held hash leaves k inner)
    (hcount : count < 2 ^ 32) (hc : Rising hash leaves k count c) (hfuel : 33 ≤ c.level + fuel) :
    ∃ c', climb hash fPath fMutated count inner matchlevel fuel c = .ok c' ∧ Rising hash leaves k count c' ∧
      count.testBit c'.level = true ∧ c.level ≤ c'.level ∧
      ∀ p seen, fPath = true → Follows hash leaves p seen k count matchlevel c →
        Follows hash leaves p seen k count matchlevel c' := by
  induction fuel generalizing c with
  | zero =>
    have hlt := hc.level_lt hcount
    omega
  | succ fuel ih =>
    have hlt := hc.level_lt hcount
    unfold climb bitClear
    rw [if_pos hlt, ok_bind]
    cases hbit : count.testBit c.level with
    | true => exact ⟨c, rfl, hc, hbit, le_rfl, fun p seen _ hf => hf⟩
    | false =>
      obtain ⟨-, hup⟩ := hc.stepUp fPath fMutated matchlevel hheld hbit
      have hlevel : (stepUp hash fPath fMutated inner matchlevel c).level = c.level + 1 := rfl
      obtain ⟨c', hrun, hc', hbit', _, hpath⟩ := ih hup (by omega)
      refine ⟨c', hrun, hc', hbit', by omega, ?_⟩
      rintro p seen rfl hf
      exact hpath p seen rfl (hf.stepUp hc hheld hbit)

theorem climb_zero (hlevel : c.level ≤ 32) (hfuel : 33 ≤ c.level + fuel) :
    climb hash fPath fMutated 0 inner matchlevel fuel c = .error .badShift := by
  induction fuel generalizing c with
  | zero => omega
  | succ fuel ih =>
    unfold climb bitClear
    by_cases hlt : c.level < 32
    · rw [if_pos hlt, ok_bind, zero_testBit]
      have hup : (stepUp hash fPath fMutated inner matchlevel c).level = c.level + 1 := rfl
      exact ih (by omega) (by omega)
    · rw [if_neg hlt]
      rfl

/-! ## The leaves -/

structure StreamInv (hash : Uint256 → Uint256 → Uint256) (leaves : List Uint256) (fPath : Bool) (p k : Nat)
    (s : Stream) : Prop where
  count : s.count = k
  held : Held hash leaves k s.inner
  path : fPath = true → Waits hash leaves p k k 0 s.matchlevel s.path

theorem testBit_of_dvd {n j L : Nat} (hdvd : 2 ^ L ∣ n) (hj : j < L) : n.testBit j = false := by
  obtain ⟨_, rfl⟩ := hdvd
  rw [testBit_two_pow_mul]
  simp [not_le.mpr hj]

theorem Rising.held (hc : Rising hash leaves k count c) (hbit : count.testBit c.level = true)
    (hheld : Held hash leaves k inner) : Held hash leaves count (Function.update inner c.level c.h) := by
  intro j hj
  rcases lt_trichotomy j c.level with hlt | rfl | hgt
  · rw [testBit_of_dvd hc.dvd hlt] at hj
    cases hj
  · rw [Function.update_self, hc.top]
  · rw [Function.update_of_ne (by omega)]
    have habove := hc.above hbit hgt
    rw [habove]
    apply hheld
    rw [testBit_true, ← habove, ← testBit_true]
    exact hj

theorem Rising.waits_above (hc : Rising hash leaves k count c) (hbit : count.testBit c.level = true)
    (hwaits : Waits hash leaves p seen k c.level matchlevel path) :
    Waits hash leaves p seen k (c.level + 1) matchlevel path ∧
      Waits hash leaves p seen count (c.level + 1) matchlevel path := by
  rcases hwaits with hnone | ⟨m, _, hm, hkbit, hp, hpath⟩
  · exact ⟨.inl hnone, .inl hnone⟩
  · have hne : m ≠ c.level := by
      rintro rfl
      have hodd := testBit_true.mp hbit
      rw [testBit_true, hc.div.1] at hkbit
      omega
    have habove := hc.above hbit (show c.level < m by omega)
    refine ⟨.inr ⟨m, by omega, hm, hkbit, hp, hpath⟩, .inr ⟨m, by omega, hm, ?_, ?_, hpath⟩⟩
    · rw [testBit_true, habove, ← testBit_true]
      exact hkbit
    · rw [habove]
      exact hp

theorem Waits.weaken {l' : Nat} (h : Waits hash leaves p seen k l matchlevel path) (hl : l' ≤ l) :
    Waits hash leaves p seen k l' matchlevel path := by
  rcases h with hnone | ⟨m, _, hrest⟩
  · exact .inl hnone
  · exact .inr ⟨m, by omega, hrest⟩

theorem addLeaf_spec (hs : StreamInv hash leaves fPath p k s) (hk : k < leaves.length) (hsize : k + 1 < 2 ^ 32) :
    ∃ s', addLeaf hash fPath p s (leaves.getD k 0) = .ok s' ∧ StreamInv hash leaves fPath p (k + 1) s' := by
  let c : Climb := { level := 0, h := leaves.getD k 0, matchh := s.count == p, path := s.path, mutated := s.mutated }
  have hc : Rising hash leaves k (k + 1) c := by
    constructor
    · exact Nat.one_dvd _
    · exact lt_succ_self k
    · exact le_rfl
    · change k + 1 < leaves.length + 1
      omega
    · change leaves.getD k 0 = node hash 0 leaves 0 ((k + 1) / 2 ^ 0 - 1)
      rw [Nat.pow_zero, Nat.div_one, Nat.add_sub_cancel, node]
  obtain ⟨c', hrun, hc', hbit, -, hpath⟩ := climb_spec fPath true s.matchlevel hs.held hsize hc
    (show 33 ≤ c.level + levels from le_rfl)
  have hmod : (s.count + 1) % 2 ^ 32 = k + 1 := by
    rw [hs.count]
    exact mod_eq_of_lt hsize
  unfold addLeaf
  simp only [hmod]
  rw [show climb hash fPath true (k + 1) s.inner s.matchlevel levels
    ⟨0, leaves.getD k 0, s.count == p, s.path, s.mutated⟩ = .ok c' from hrun, ok_bind]
  refine ⟨_, rfl, rfl, hc'.held hbit hs.held, ?_⟩
  intro hfPath
  have hstart : Follows hash leaves p (k + 1) k (k + 1) s.matchlevel c := by
    by_cases hkp : k = p
    · subst hkp
      left
      refine ⟨by simp [c, hs.count], by simp [c], ?_⟩
      rcases hs.path hfPath with ⟨-, -, hnil⟩ | ⟨_, -, -, hkbit, hp, -⟩
      · exact hnil
      · -- the leaf cannot be in a subtree of those before it
        have hodd := testBit_true.mp hkbit
        omega
    · right
      refine ⟨by simp [c, hs.count, hkp], ?_⟩
      rcases hs.path hfPath with ⟨hnone, _, hnil⟩ | hsome
      · exact .inl ⟨hnone, by omega, hnil⟩
      · exact .inr hsome
  rcases hpath p (k + 1) hfPath hstart with ⟨hmatch, hp, hpath⟩ | ⟨hmatch, hwaits⟩
  · rw [hmatch]
    exact .inr ⟨c'.level, Nat.zero_le _, rfl, hbit, hp, hpath⟩
  · rw [hmatch]
    exact (hc'.waits_above hbit hwaits).2.weaken (Nat.zero_le _)

theorem foldlM_addLeaf {done rest : List Uint256} (hleaves : leaves = done ++ rest)
    (hs : StreamInv hash leaves fPath p done.length s) (hsize : leaves.length < 2 ^ 32) :
    ∃ s', rest.foldlM (addLeaf hash fPath p) s = .ok s' ∧ StreamInv hash leaves fPath p leaves.length s' := by
  induction rest generalizing s done with
  | nil =>
    rw [append_nil] at hleaves
    exact ⟨s, rfl, hleaves ▸ hs⟩
  | cons leaf rest ih =>
    have hlength : leaves.length = done.length + (rest.length + 1) := by
      rw [hleaves, length_append, length_cons]
    have hleaf : leaves.getD done.length 0 = leaf := by
      rw [hleaves]
      simp
    obtain ⟨s', hrun, hs'⟩ := addLeaf_spec hs (by omega) (by omega)
    rw [hleaf] at hrun
    rw [foldlM_cons, hrun, ok_bind]
    refine ih (show leaves = (done ++ [leaf]) ++ rest from ?_) ?_
    · simpa using hleaves
    · rw [length_append, length_singleton]
      exact hs'

theorem lowestLevel_spec (hpos : 0 < count) (hcount : count < 2 ^ 32) (hdvd : 2 ^ l ∣ count) (hfuel : 33 ≤ l + fuel) :
    ∃ L, lowestLevel count fuel l = .ok L ∧ 2 ^ L ∣ count ∧ count.testBit L = true := by
  induction fuel generalizing l with
  | zero =>
    have hlt := (Nat.pow_lt_pow_iff_right (by omega)).mp (Nat.lt_of_le_of_lt (le_of_dvd hpos hdvd) hcount)
    omega
  | succ fuel ih =>
    have hlt : l < 32 := (Nat.pow_lt_pow_iff_right (by omega)).mp (Nat.lt_of_le_of_lt (le_of_dvd hpos hdvd) hcount)
    unfold lowestLevel bitClear
    rw [if_pos hlt, ok_bind]
    cases hbit : count.testBit l with
    | true => exact ⟨l, rfl, hdvd, hbit⟩
    | false =>
      apply ih _ (by omega)
      rw [← Nat.div_mul_cancel hdvd, Nat.pow_succ, Nat.mul_comm]
      exact Nat.mul_dvd_mul (dvd_of_mod_eq_zero (testBit_false.mp hbit)) (dvd_refl _)

/-! ## The sweep -/

/-- `count` is the number of leaves, rounded up at `c`. -/
structure Sweeping (hash : Uint256 → Uint256 → Uint256) (leaves : List Uint256) (count : Nat) (c : Climb) : Prop where
  dvd : 2 ^ c.level ∣ count
  bit : count.testBit c.level = true
  le : leaves.length ≤ count
  within : count < leaves.length + 2 ^ c.level
  low : 2 ^ c.level < 2 * leaves.length
  top : c.h = node hash 0 leaves c.level (count / 2 ^ c.level - 1)

/-- As `Follows`, with what waits strictly above. -/
def Sweeps (hash : Uint256 → Uint256 → Uint256) (leaves : List Uint256) (p count : Nat) (matchlevel : Option Nat)
    (c : Climb) : Prop :=
  c.matchh = true ∧ p / 2 ^ c.level = count / 2 ^ c.level - 1 ∧ c.path = siblings hash leaves p c.level ∨
    c.matchh = false ∧ Waits hash leaves p leaves.length leaves.length (c.level + 1) matchlevel c.path

def repeated (hash : Uint256 → Uint256 → Uint256) (fPath : Bool) (c : Climb) : Climb :=
  { c with level := c.level + 1, h := hash c.h c.h, path := if fPath && c.matchh then c.path ++ [c.h] else c.path }

section

variable (hc : Sweeping hash leaves count c)
include hc

theorem Sweeping.three_le (hmore : count ≠ 2 ^ c.level) : 3 * 2 ^ c.level ≤ count := by
  have hodd := testBit_true.mp hc.bit
  have hexact := Nat.div_mul_cancel hc.dvd
  have hne : count / 2 ^ c.level ≠ 1 := by
    intro h
    rw [h, Nat.one_mul] at hexact
    exact hmore hexact.symm
  have hthree : 3 ≤ count / 2 ^ c.level := by
    generalize count / 2 ^ c.level = q at hodd hne
    omega
  calc 3 * 2 ^ c.level ≤ count / 2 ^ c.level * 2 ^ c.level := Nat.mul_le_mul_right _ hthree
    _ = count := hexact

theorem Sweeping.repeated :
    Rising hash leaves leaves.length (count + 2 ^ c.level) (repeated hash fPath c) := by
  have hodd := testBit_true.mp hc.bit
  have hexact := Nat.div_mul_cancel hc.dvd
  have hle := hc.le
  have hwithin := hc.within
  have hup : count + 2 ^ c.level = 2 ^ (c.level + 1) * (count / 2 ^ c.level / 2 + 1) := by
    obtain ⟨r, hr⟩ : ∃ r, count / 2 ^ c.level = 2 * r + 1 := ⟨count / 2 ^ c.level / 2, by omega⟩
    rw [hr, show (2 * r + 1) / 2 = r by omega]
    calc count + 2 ^ c.level = (2 * r + 1) * 2 ^ c.level + 2 ^ c.level := by rw [← hr, hexact]
      _ = 2 ^ (c.level + 1) * (r + 1) := by ring
  constructor
  · change 2 ^ (c.level + 1) ∣ count + 2 ^ c.level
    exact ⟨_, hup⟩
  · omega
  · change count + 2 ^ c.level ≤ leaves.length + 2 ^ (c.level + 1)
    rw [Nat.pow_succ]
    omega
  · change count + 2 ^ c.level < leaves.length + 2 ^ (c.level + 1)
    rw [Nat.pow_succ]
    omega
  · change hash c.h c.h = node hash 0 leaves (c.level + 1) ((count + 2 ^ c.level) / 2 ^ (c.level + 1) - 1)
    have hwidth : ¬ 2 * (count / 2 ^ c.level / 2) + 1 < width leaves.length c.level := by
      rw [Nat.not_lt, width_le_iff, show 2 * (count / 2 ^ c.level / 2) + 1 = count / 2 ^ c.level by omega, hexact]
      exact hle
    rw [hup, Nat.mul_div_cancel_left _ (Nat.two_pow_pos _), Nat.add_sub_cancel, node, if_neg hwidth, hc.top,
      show 2 * (count / 2 ^ c.level / 2) = count / 2 ^ c.level - 1 by omega]

theorem Sweeps.repeated (hp : Sweeps hash leaves p count matchlevel c) :
    Follows hash leaves p leaves.length leaves.length (count + 2 ^ c.level) matchlevel (repeated hash true c) := by
  have hodd := testBit_true.mp hc.bit
  have hexact := Nat.div_mul_cancel hc.dvd
  rcases hp with ⟨hmatch, hp, hpath⟩ | ⟨hmatch, hwaits⟩
  · left
    refine ⟨hmatch, ?_, ?_⟩
    · change p / 2 ^ (c.level + 1) = (count + 2 ^ c.level) / 2 ^ (c.level + 1) - 1
      rw [Nat.pow_succ, ← Nat.div_div_eq_div_mul, ← Nat.div_div_eq_div_mul, add_div_right _ (Nat.two_pow_pos _), hp]
      omega
    · have hnew : (Merkle.repeated hash true c).path = c.path ++ [c.h] := by
        simp [Merkle.repeated, hmatch]
      have hwidth : ¬ count / 2 ^ c.level - 1 + 1 < width leaves.length c.level := by
        have hpos : 0 < count / 2 ^ c.level := Nat.pos_of_ne_zero fun h => by simp [h] at hodd
        rw [Nat.not_lt, width_le_iff, Nat.sub_add_cancel hpos, hexact]
        exact hc.le
      change _ = siblings hash leaves p (c.level + 1)
      rw [hnew, hpath, siblings_succ, sibling, hp, if_neg (by omega), if_neg hwidth, hc.top]
  · right
    refine ⟨hmatch, ?_⟩
    have hnew : (Merkle.repeated hash true c).path = c.path := by
      simp [Merkle.repeated, hmatch]
    rw [hnew]
    exact hwaits

theorem Sweeping.of_rising {count' : Nat} {c' : Climb} (hmore : count ≠ 2 ^ c.level)
    (hcount : count' = count + 2 ^ c.level) (hc' : Rising hash leaves leaves.length count' c')
    (hbit : count'.testBit c'.level = true) : Sweeping hash leaves count' c' := by
  have hthree := hc.three_le hmore
  have hwithin := hc.within
  have hpow := hc'.pow_le
  exact ⟨hc'.dvd, hbit, hc'.below.le, hc'.within, by omega, hc'.top⟩

theorem Sweeping.height_eq (hdone : count = 2 ^ c.level) : c.level = height leaves.length := by
  have hle := hc.le
  have hlow := hc.low
  apply le_antisymm
  · by_contra hlt
    have hheight : height leaves.length ≤ c.level - 1 := by omega
    rw [height_le_iff, width_le_iff, one_mul] at hheight
    have hpow : 2 ^ c.level = 2 ^ (c.level - 1) * 2 := by
      rw [← pow_succ]
      congr 1
      omega
    omega
  · rw [height_le_iff, width_le_iff, one_mul]
    omega

end

theorem sweep_spec (hheld : Held hash leaves leaves.length inner) (hsize : leaves.length ≤ 2 ^ 31)
    (hc : Sweeping hash leaves count c) (hfuel : 33 ≤ c.level + fuel) :
    ∃ c', sweep hash fPath inner matchlevel fuel count c = .ok c' ∧ c'.h = node hash 0 leaves (height leaves.length) 0 ∧
      ∀ p, fPath = true → p < leaves.length → Sweeps hash leaves p count matchlevel c →
        c'.path = siblings hash leaves p (height leaves.length) := by
  induction fuel generalizing count c with
  | zero =>
    have hlow := hc.low
    have hlt : c.level < 33 := (Nat.pow_lt_pow_iff_right (a := 2) (by omega)).mp (by omega)
    omega
  | succ fuel ih =>
    unfold sweep
    split
    · next hdone =>
      have hheight := hc.height_eq hdone
      refine ⟨c, rfl, ?_, ?_⟩
      · rw [hc.top, hheight, hdone, hheight, Nat.div_self (Nat.two_pow_pos _)]
      · rintro p - hp (⟨-, -, hpath⟩ | ⟨-, hwaits⟩)
        · rw [hpath, hheight]
        · rcases hwaits with ⟨-, hle, -⟩ | ⟨m, hm, -, hbit, -⟩
          · omega
          · -- no subtree is as high as the root
            have hle := hc.le
            have hbig := ge_two_pow_of_testBit hbit
            have hpow : 2 ^ (c.level + 1) ≤ 2 ^ m := Nat.pow_le_pow_right (by omega) hm
            rw [Nat.pow_succ] at hpow
            omega
    · next hmore =>
      have hthree := hc.three_le hmore
      have hwithin := hc.within
      have hrise : Rising hash leaves leaves.length (count + 2 ^ c.level) (repeated hash fPath c) := hc.repeated
      have hcount : count + 2 ^ c.level < 2 ^ 32 := by omega
      obtain ⟨c', hrun, hc', hbit, hle, hpath⟩ := climb_spec fPath false matchlevel hheld hcount hrise
        (show 33 ≤ (repeated hash fPath c).level + levels by unfold levels; omega)
      have hlevel : (repeated hash fPath c).level = c.level + 1 := rfl
      have hsweep := hc.of_rising hmore rfl hc' hbit
      obtain ⟨c'', hrun', htop, hpath'⟩ := ih hsweep (by omega)
      refine ⟨c'', ?_, htop, ?_⟩
      · simp only [mod_eq_of_lt hcount]
        rw [show climb hash fPath false (count + 2 ^ c.level) inner matchlevel levels
          ⟨c.level + 1, hash c.h c.h, c.matchh, if fPath && c.matchh then c.path ++ [c.h] else c.path, c.mutated⟩ =
            .ok c'
          from hrun, ok_bind]
        exact hrun'
      · rintro p rfl hp hsweeps
        apply hpath' p rfl hp
        rcases hpath p leaves.length rfl (hsweeps.repeated hc) with hmatch | ⟨hmatch, hwaits⟩
        · exact .inl hmatch
        · exact .inr ⟨hmatch, (hc'.waits_above hbit hwaits).1⟩

theorem sweep_overflow (hheld : Held hash leaves leaves.length inner) (hlarge : 2 ^ 31 < leaves.length)
    (hc : Sweeping hash leaves count c) (hcount : count < 2 ^ 32) (hfuel : 33 ≤ c.level + fuel) :
    sweep hash fPath inner matchlevel fuel count c = .error .badShift := by
  induction fuel generalizing count c with
  | zero =>
    have hle := le_of_dvd (by have := hc.le; omega) hc.dvd
    have hlt : c.level < 32 := (Nat.pow_lt_pow_iff_right (a := 2) (by omega)).mp (by omega)
    omega
  | succ fuel ih =>
    have hle := hc.le
    have hpow : 2 ^ c.level ≤ count := le_of_dvd (by omega) hc.dvd
    have hlt : c.level < 32 := (Nat.pow_lt_pow_iff_right (a := 2) (by omega)).mp (by omega)
    have hmore : count ≠ 2 ^ c.level := by
      have hpow : 2 ^ c.level ≤ 2 ^ 31 := Nat.pow_le_pow_right (by omega) (by omega)
      omega
    have hrise : Rising hash leaves leaves.length (count + 2 ^ c.level) (repeated hash fPath c) := hc.repeated
    have hlevel : (repeated hash fPath c).level = c.level + 1 := rfl
    unfold sweep
    rw [if_neg hmore]
    by_cases hsum : count + 2 ^ c.level < 2 ^ 32
    · obtain ⟨c', hrun, hc', hbit, _, -⟩ := climb_spec fPath false matchlevel hheld hsum hrise
        (show 33 ≤ (repeated hash fPath c).level + levels by unfold levels; omega)
      simp only [mod_eq_of_lt hsum]
      rw [show climb hash fPath false (count + 2 ^ c.level) inner matchlevel levels
        ⟨c.level + 1, hash c.h c.h, c.matchh, if fPath && c.matchh then c.path ++ [c.h] else c.path, c.mutated⟩ = .ok c'
        from hrun, ok_bind]
      exact ih (hc.of_rising hmore rfl hc' hbit) hsum (by omega)
    · -- both are multiples of the power, so the sum is the end of the range
      have hzero : (count + 2 ^ c.level) % 2 ^ 32 = 0 := by
        obtain ⟨q, hq⟩ := hc.dvd
        obtain ⟨d, hd⟩ : ∃ d, 32 = c.level + d := ⟨32 - c.level, by omega⟩
        have hq' : q < 2 ^ d := by
          rw [hq, hd, Nat.pow_add] at hcount
          exact Nat.lt_of_mul_lt_mul_left hcount
        have hsum' : count + 2 ^ c.level ≤ 2 ^ 32 := by
          rw [hq, hd, Nat.pow_add, ← mul_succ]
          exact Nat.mul_le_mul_left _ hq'
        rw [show count + 2 ^ c.level = 2 ^ 32 by omega, mod_self]
      have herror : climb hash fPath false 0 inner matchlevel levels
          ⟨c.level + 1, hash c.h c.h, c.matchh, if fPath && c.matchh then c.path ++ [c.h] else c.path, c.mutated⟩ =
            .error .badShift := by
        apply climb_zero
        · simp only
          omega
        · unfold levels
          simp only
          omega
      simp only [hzero]
      rw [herror]
      rfl

/-! ## Both algorithms agree -/

theorem stream_spec (hash : Uint256 → Uint256 → Uint256) (fPath : Bool) (p : Nat) (hpos : leaves ≠ [])
    (hsize : leaves.length < 2 ^ 32) :
    ∃ s level, leaves.foldlM (addLeaf hash fPath p) {} = .ok s ∧ lowestLevel s.count levels 0 = .ok level ∧
      s.count = leaves.length ∧ Held hash leaves leaves.length s.inner ∧
      Sweeping hash leaves leaves.length ⟨level, s.inner level, s.matchlevel = some level, s.path, s.mutated⟩ ∧
      (fPath = true → Sweeps hash leaves p leaves.length s.matchlevel
        ⟨level, s.inner level, s.matchlevel = some level, s.path, s.mutated⟩) := by
  have hlength := length_pos_iff.mpr hpos
  have hinit : StreamInv hash leaves fPath p ([] : List Uint256).length {} := by
    refine ⟨rfl, ?_, fun _ => .inl ⟨rfl, Nat.zero_le _, rfl⟩⟩
    intro j hj
    simp at hj
  obtain ⟨s, hfold, hs⟩ := foldlM_addLeaf (nil_append _).symm hinit hsize
  obtain ⟨level, hlevel, hdvd, hbit⟩ :=
      lowestLevel_spec hlength hsize (Nat.one_dvd _) (show 33 ≤ 0 + levels from le_rfl)
  have hle := le_of_dvd hlength hdvd
  refine ⟨s, level, hfold, by rw [hs.count]; exact hlevel, hs.count, hs.held, ?_, ?_⟩
  · refine ⟨hdvd, hbit, le_rfl, ?_, ?_, hs.held level hbit⟩
    · exact Nat.lt_add_of_pos_right (Nat.two_pow_pos _)
    · change 2 ^ level < _
      omega
  · intro hfPath
    rcases hs.path hfPath with ⟨hnone, hle, hnil⟩ | ⟨m, -, hm, hmbit, hp, hpath⟩
    · exact .inr ⟨by simp [hnone], .inl ⟨hnone, hle, hnil⟩⟩
    · by_cases hmlevel : m = level
      · subst hmlevel
        exact .inl ⟨by simp [hm], hp, hpath⟩
      · refine .inr ⟨by simp [hm, hmlevel], .inr ⟨m, ?_, hm, hmbit, hp, hpath⟩⟩
        by_contra hlt
        rw [testBit_of_dvd hdvd (by change ¬ level + 1 ≤ m at hlt; omega)] at hmbit
        cases hmbit

theorem merkleComputation_spec (hash : Uint256 → Uint256 → Uint256) (fPath : Bool) (p : Nat) (hpos : leaves ≠ [])
    (hsize : leaves.length ≤ 2 ^ 31) :
    ∃ r, merkleComputation hash fPath leaves p = .ok r ∧ r.root = node hash 0 leaves (height leaves.length) 0 ∧
      (fPath = true → p < leaves.length → r.path = siblings hash leaves p (height leaves.length)) := by
  obtain ⟨s, level, hfold, hlevel, hcount, hheld, hsweeping, hsweeps⟩ := stream_spec hash fPath p hpos (by omega)
  obtain ⟨c, hrun, htop, hpath⟩ : ∃ c, sweep hash fPath s.inner s.matchlevel levels leaves.length
      ⟨level, s.inner level, s.matchlevel = some level, s.path, s.mutated⟩ = .ok c ∧ _ ∧ _ :=
    sweep_spec hheld hsize hsweeping (by simp only [levels]; omega)
  unfold merkleComputation
  rw [if_neg hpos, hfold, ok_bind, hlevel, ok_bind, hcount, hrun, ok_bind]
  exact ⟨_, rfl, htop, fun hfPath hp => hpath p hfPath hp (hsweeps hfPath)⟩

theorem merkleComputation_overflow (hash : Uint256 → Uint256 → Uint256) (fPath : Bool) (p : Nat)
    (hlarge : 2 ^ 31 < leaves.length) (hsize : leaves.length < 2 ^ 32) :
    merkleComputation hash fPath leaves p = .error .badShift := by
  have hpos : leaves ≠ [] := by
    rintro rfl
    simp at hlarge
  obtain ⟨_, _, hfold, hlevel, hcount, hheld, hsweeping, -⟩ := stream_spec hash fPath p hpos hsize
  unfold merkleComputation
  rw [if_neg hpos, hfold, ok_bind, hlevel, ok_bind, hcount,
    sweep_overflow hheld hlarge hsweeping hsize (by simp only [levels]; omega)]
  rfl

/-- The root of `ComputeMerkleRoot`, and every path leads to it. -/
def Agrees (hash : Uint256 → Uint256 → Uint256) (leaves : List Uint256) : Prop :=
  (∀ fPath position, ∃ r, merkleComputation hash fPath leaves position = .ok r ∧
    r.root = (computeMerkleRoot hash leaves).1) ∧
    ∀ position, position < leaves.length → ∃ path, computeMerklePath hash leaves position = .ok path ∧
      foldPath hash path (leaves.getD position 0) position = (computeMerkleRoot hash leaves).1

theorem merkleComputation_agrees_iff (hash : Uint256 → Uint256 → Uint256) (leaves : List Uint256)
    (hsize : leaves.length ≤ 2 ^ 32 - 1) : Agrees hash leaves ↔ leaves.length ≤ 2 ^ 31 := by
  constructor
  · rintro ⟨hroot, -⟩
    by_contra hlarge
    obtain ⟨r, hrun, -⟩ := hroot false 0
    rw [merkleComputation_overflow hash false 0 (by omega) (by omega)] at hrun
    cases hrun
  · intro hsmall
    by_cases hpos : leaves = []
    · subst hpos
      exact ⟨fun fPath position => ⟨⟨0, false, []⟩, rfl, rfl⟩, fun position hp => by simp at hp⟩
    · rw [Agrees, computeMerkleRoot_fst hpos]
      constructor
      · intro fPath position
        obtain ⟨r, hrun, hroot, -⟩ := merkleComputation_spec hash fPath position hpos hsmall
        exact ⟨r, hrun, hroot⟩
      · intro position hp
        obtain ⟨r, hrun, -, hpath⟩ := merkleComputation_spec hash true position hpos hsmall
        refine ⟨r.path, ?_, ?_⟩
        · unfold computeMerklePath
          rw [hrun]
          rfl
        · have hheight : leaves.length ≤ 1 * 2 ^ height leaves.length := (width_le_iff 1).mp (height_le_iff.mp le_rfl)
          rw [hpath rfl hp, foldPath_siblings hp, div_eq_of_lt (by omega)]

theorem merkleComputation_agrees_three : Agrees Pool.hashPair [1, 2, 3] :=
  (merkleComputation_agrees_iff Pool.hashPair [1, 2, 3] (by decide)).mpr (by decide)

/-- One leaf more than half of the range. -/
theorem merkleComputation_disagrees : (List.replicate (2 ^ 31 + 1) (0 : Uint256)).length ≤ 2 ^ 32 - 1 ∧
    ¬Agrees Pool.hashPair (List.replicate (2 ^ 31 + 1) 0) := by
  rw [length_replicate]
  refine ⟨by omega, ?_⟩
  rintro ⟨hroot, -⟩
  obtain ⟨_, hrun, -⟩ := hroot false 0
  rw [merkleComputation_overflow _ false 0 (by rw [length_replicate]; omega) (by rw [length_replicate]; omega)] at hrun
  cases hrun

end FullNode.Merkle
