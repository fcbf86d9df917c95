import FullNode.MerkleBlock
import FullNode.MerkleRoot
import Mathlib.Data.Nat.Bitwise

/-! # Partial merkle trees prove what they match -/

namespace FullNode.Merkle

open MerkleTree List Nat

variable {hash : Uint256 → Uint256 → Uint256} {xs : List Uint256} {vMatch bits : List Bool} {n h p : Nat}

/-! ## Bits as bytes -/

theorem bitsToBytes_prefix (bits : List Bool) {m : Nat} (hm : m ≤ bits.length) : ∃ bytes, (range m).foldl
      (fun ret p => ret.modify (p / 8) fun byte => .ofNat (byte.toNat ||| (bits.getD p false).toNat <<< (p % 8)))
      (replicate ((bits.length + 7) / 8) (0 : UInt8)) = bytes ∧ bytes.length = (bits.length + 7) / 8 ∧
    ∀ i j, j < 8 → (bytes.getD i 0).toNat.testBit j = (decide (8 * i + j < m) && bits.getD (8 * i + j) false) := by
  induction m with
  | zero =>
    refine ⟨_, rfl, by simp, ?_⟩
    intro i j _
    have hzero : (replicate ((bits.length + 7) / 8) (0 : UInt8)).getD i 0 = 0 := by
      rw [getD_eq_getElem?_getD, getElem?_replicate]
      split <;> rfl
    rw [range_zero, foldl_nil, hzero]
    simp
  | succ m ih =>
    obtain ⟨bytes, hrun, hlength, hbits⟩ := ih (by omega)
    refine ⟨_, rfl, ?_, ?_⟩
    · rw [range_succ, foldl_append, hrun]
      simp [hlength]
    · intro i j hj
      rw [range_succ, foldl_append, hrun, foldl_cons, foldl_nil]
      by_cases hi : i = m / 8
      · have hlt : m / 8 < bytes.length := by omega
        have hbyte : (bytes.modify (m / 8) fun byte =>
            .ofNat (byte.toNat ||| (bits.getD m false).toNat <<< (m % 8))).getD i 0 =
            .ofNat ((bytes.getD (m / 8) 0).toNat ||| (bits.getD m false).toNat <<< (m % 8)) := by
          rw [hi, getD_eq_getElem?_getD, getElem?_modify, getD_eq_getElem?_getD]
          simp [getElem?_eq_getElem hlt]
        rw [hbyte, UInt8.toNat_ofNat', testBit_mod_two_pow, testBit_or, hbits _ _ hj, testBit_shiftLeft]
        by_cases hjm : j = m % 8
        · have hsame : 8 * i + j = m := by omega
          rw [hjm, Nat.sub_self, ← hi, ← hjm, hsame]
          cases bits.getD m false with
          | false => simp
          | true => simp; omega
        · have hlow : ∀ b : Bool, (decide (m % 8 ≤ j) && b.toNat.testBit (j - m % 8)) = false := by
            intro b
            by_cases hle : m % 8 ≤ j
            · have hpow : 1 < 2 ^ (j - m % 8) := Nat.one_lt_two_pow (by omega)
              rw [testBit_lt_two_pow (Nat.lt_of_le_of_lt (Bool.toNat_le b) hpow), Bool.and_false]
            · simp [hle]
          rw [hlow, ← hi, Bool.or_false]
          simp only [hj, decide_true, Bool.true_and]
          congr 1
          simp only [decide_eq_decide]
          omega
      · have hbyte : (bytes.modify (m / 8) fun byte =>
            .ofNat (byte.toNat ||| (bits.getD m false).toNat <<< (m % 8))).getD i 0 = bytes.getD i 0 := by
          rw [getD_eq_getElem?_getD, getElem?_modify, getD_eq_getElem?_getD]
          simp [Ne.symm hi]
        rw [hbyte, hbits _ _ hj]
        congr 1
        simp only [decide_eq_decide]
        omega

theorem bytesToBits_bitsToBytes (bits : List Bool) :
    ∃ padding, bytesToBits (bitsToBytes bits) = bits ++ padding ∧
      bits.length + padding.length = (bits.length + 7) / 8 * 8 := by
  obtain ⟨bytes, hrun, hlength, hbits⟩ := bitsToBytes_prefix bits le_rfl
  have hbytes : bitsToBytes bits = bytes := hrun
  refine ⟨replicate ((bits.length + 7) / 8 * 8 - bits.length) false, ?_, ?_⟩
  · rw [hbytes]
    unfold bytesToBits
    rw [hlength]
    apply ext_getElem
    · simp
      omega
    · intro q hq hq'
      rw [getElem_map, getElem_range, one_shiftLeft, and_two_pow, hbits _ _ (mod_lt _ (by omega)), div_add_mod]
      by_cases hin : q < bits.length
      · rw [getElem_append_left hin]
        simp only [hin, getD_eq_getElem?_getD, getElem?_eq_getElem, Option.getD_some, decide_true, Bool.true_and]
        cases bits[q] <;> simp
      · rw [getElem_append_right (by omega)]
        simp [hin]
  · rw [length_replicate]
    omega

/-! ## Widths and heights -/

def maxCount : Nat := MAX_BLOCK_WEIGHT / MIN_TRANSACTION_WEIGHT

theorem height_le_of_maxCount (hn : n ≤ maxCount) : height n ≤ 15 := by
  rw [height_le_iff, width_le_iff]
  exact hn.trans (by decide)

theorem calcTreeWidth_eq (hn : n ≤ maxCount) (hh : h ≤ 15) : calcTreeWidth n h = width n h := by
  have hpow : 2 ^ h ≤ 2 ^ 15 := Nat.pow_le_pow_right (by omega) hh
  have hmax : n ≤ 16666 := hn.trans (by decide)
  unfold calcTreeWidth width
  rw [one_shiftLeft, mod_eq_of_lt (by omega), shiftRight_eq_div_pow]

theorem calcHeight_eq (hn : n ≤ maxCount) : calcHeight n = height n := by
  have hle := height_le_of_maxCount hn
  have hloop : ∀ fuel h, h ≤ height n → height n ≤ h + fuel → heightLoop n fuel h = height n := by
    intro fuel
    induction fuel with
    | zero =>
      intro h hh hfuel
      exact le_antisymm hh hfuel
    | succ fuel ih =>
      intro h hh hfuel
      unfold heightLoop
      rw [calcTreeWidth_eq hn (by omega)]
      split
      · next hwide =>
        have hlt : ¬ height n ≤ h := by
          rw [height_le_iff]
          omega
        exact ih _ (by omega) (by omega)
      · next hnarrow =>
        have hge : height n ≤ h := by
          rw [height_le_iff]
          omega
        omega
  exact hloop 32 0 (zero_le _) (by omega)

/-! ## Building -/

def matchedIn (vMatch : List Bool) (h p : Nat) : List Nat :=
  (List.range' (p * 2 ^ h) (2 ^ h)).filter fun q => vMatch.getD q false

theorem matchedIn_zero : matchedIn vMatch 0 p = if vMatch.getD p false then [p] else [] := by
  unfold matchedIn
  rw [pow_zero, mul_one, range'_one, filter_singleton, Bool.cond_eq_ite]

theorem matchedIn_succ : matchedIn vMatch (h + 1) p = matchedIn vMatch h (p * 2) ++ matchedIn vMatch h (p * 2 + 1) := by
  unfold matchedIn
  rw [← filter_append, show (p * 2 + 1) * 2 ^ h = p * 2 * 2 ^ h + 2 ^ h by ring, range'_append_1,
    show p * 2 ^ (h + 1) = p * 2 * 2 ^ h by ring, show 2 ^ (h + 1) = 2 ^ h + 2 ^ h by ring]

theorem filter_beyond {count : Nat} (hp : vMatch.length ≤ p) :
    ((range' p count).filter fun q => vMatch.getD q false) = [] := by
  rw [filter_eq_nil_iff]
  intro q hq
  rw [mem_range'_1] at hq
  simp [getD_eq_getElem?_getD, getElem?_eq_none (show vMatch.length ≤ q by omega)]

theorem matchedIn_beyond (hp : width vMatch.length h ≤ p) : matchedIn vMatch h p = [] :=
  filter_beyond ((width_le_iff p).mp hp)

theorem parentOfMatch_eq {count : Nat} :
    parentOfMatch vMatch.length vMatch count p =
      .ok !((range' p count).filter fun q => vMatch.getD q false).isEmpty := by
  induction count generalizing p with
  | zero => rfl
  | succ count ih =>
    unfold parentOfMatch
    split
    · next hlt =>
      have hread : readAt vMatch p = .ok (vMatch.getD p false) := by
        unfold readAt
        rw [getD_eq_getElem?_getD, getElem?_eq_getElem hlt]
        rfl
      rw [hread, ok_bind, ih, ok_bind, range'_succ, filter_cons]
      cases vMatch.getD p false <;> rfl
    · next hge =>
      rw [filter_beyond (le_of_not_gt hge)]
      rfl

theorem calcHash_eq (hpos : xs ≠ []) (hn : xs.length ≤ maxCount) (hh : h ≤ 15) (hp : p < width xs.length h) :
    calcHash hash xs.length xs h p = .ok (node hash 0 xs h p) := by
  have hcheck : check (xs.length ≠ 0) = .ok () := by simp [hpos]
  induction h generalizing p with
  | zero =>
    rw [width_zero] at hp
    unfold calcHash readAt
    rw [hcheck, ok_bind, getElem?_eq_getElem hp, node, getD_eq_getElem?_getD, getElem?_eq_getElem hp]
    rfl
  | succ h ih =>
    have hleft : p * 2 < width xs.length h := left_lt_width hp
    unfold calcHash
    rw [hcheck, ok_bind, ih (by omega) hleft, ok_bind, calcTreeWidth_eq hn (by omega), node, mul_comm 2 p]
    split
    · next hright =>
      rw [ih (by omega) hright]
      rfl
    · rfl

def proofOf (hash : Uint256 → Uint256 → Uint256) (xs : List Uint256) (vMatch : List Bool) :
    Nat → Nat → List Bool × List Uint256
  | 0, p => ([!(matchedIn vMatch 0 p).isEmpty], [node hash 0 xs 0 p])
  | h + 1, p =>
    if (matchedIn vMatch (h + 1) p).isEmpty then ([false], [node hash 0 xs (h + 1) p])
    else
      let left := proofOf hash xs vMatch h (p * 2)
      if p * 2 + 1 < width xs.length h then
        let right := proofOf hash xs vMatch h (p * 2 + 1)
        (true :: (left.1 ++ right.1), left.2 ++ right.2)
      else (true :: left.1, left.2)

theorem traverseAndBuild_eq (hpos : xs ≠ []) (hn : xs.length ≤ maxCount) (hmatch : vMatch.length = xs.length)
    (hh : h ≤ 15) (hp : p < width xs.length h) (tree : CPartialMerkleTree) (htree : tree.nTransactions = xs.length) :
    traverseAndBuild hash xs vMatch h p tree = .ok { tree with
      vBits := tree.vBits ++ (proofOf hash xs vMatch h p).1
      vHash := tree.vHash ++ (proofOf hash xs vMatch h p).2 } := by
  induction h generalizing p tree with
  | zero =>
    unfold traverseAndBuild
    rw [htree, ← hmatch, parentOfMatch_eq, ok_bind, hmatch, calcHash_eq hpos hn hh hp, ok_bind]
    simp [proofOf, matchedIn, pure, Except.pure]
  | succ h ih =>
    have hleft : p * 2 < width xs.length h := left_lt_width hp
    have hparent : parentOfMatch tree.nTransactions vMatch (2 ^ (h + 1)) (p <<< (h + 1)) =
        .ok !(matchedIn vMatch (h + 1) p).isEmpty := by
      rw [htree, ← hmatch, parentOfMatch_eq, shiftLeft_eq]
      rfl
    unfold traverseAndBuild proofOf
    rw [hparent, ok_bind]
    cases hempty : (matchedIn vMatch (h + 1) p).isEmpty with
    | true =>
      simp only [htree]
      rw [calcHash_eq hpos hn hh hp]
      rfl
    | false =>
      simp only [Bool.not_false, Bool.not_true, Bool.false_eq_true, if_false]
      rw [ih (by omega) hleft _ (by exact htree), ok_bind]
      simp only [htree, calcTreeWidth_eq hn (show h ≤ 15 by omega)]
      split
      · next hright =>
        rw [ih (by omega) hright _ rfl]
        simp
      · simp [pure, Except.pure]

/-! ## What the extraction meets -/

theorem node_inj (hnodup : xs.Nodup)
    (hinj : ∀ a b c d, Joins hash 0 xs a b → Joins hash 0 xs c d → hash a b = hash c d → a = c ∧ b = d) {q : Nat}
    (hp : p < width xs.length h) (hq : q < width xs.length h) (heq : node hash 0 xs h p = node hash 0 xs h q) :
    p = q := by
  induction h generalizing p q with
  | zero =>
    rw [width_zero] at hp hq
    simp only [node, getD_eq_getElem?_getD, getElem?_eq_getElem hp, getElem?_eq_getElem hq, Option.getD_some] at heq
    exact (Nodup.getElem_inj_iff hnodup).mp heq
  | succ h ih =>
    by_contra hne
    rw [width_succ] at hp hq
    have hwide : 1 < width xs.length h := by omega
    have hjoins : ∀ r, 2 * r < width xs.length h → Joins hash 0 xs (node hash 0 xs h (2 * r)) _ :=
      fun r hr => ⟨h, r, hwide, hr, rfl, rfl⟩
    have hleft := (hinj _ _ _ _ (hjoins p (by omega)) (hjoins q (by omega)) heq).1
    have hdouble := ih (by omega) (by omega) hleft
    omega

theorem proofOf_length (hash : Uint256 → Uint256 → Uint256) (vMatch : List Bool) (hp : p < width xs.length h) :
    (proofOf hash xs vMatch h p).2.length ≤ (proofOf hash xs vMatch h p).1.length ∧
      (proofOf hash xs vMatch h p).2.length ≤ min xs.length ((p + 1) * 2 ^ h) - p * 2 ^ h := by
  induction h generalizing p with
  | zero =>
    rw [width_zero] at hp
    simp only [proofOf, length_singleton, Nat.pow_zero, Nat.mul_one]
    omega
  | succ h ih =>
    have hpos : 0 < 2 ^ h := Nat.two_pow_pos h
    have hpow : p * 2 ^ (h + 1) = p * 2 * 2 ^ h := by ring
    have hnext : (p + 1) * 2 ^ (h + 1) = p * 2 * 2 ^ h + 2 ^ h + 2 ^ h := by ring
    have hmid : (p * 2 + 1) * 2 ^ h = p * 2 * 2 ^ h + 2 ^ h := by ring
    have hend : (p * 2 + 1 + 1) * 2 ^ h = p * 2 * 2 ^ h + 2 ^ h + 2 ^ h := by ring
    have hstart : p * 2 * 2 ^ h < xs.length := by
      rw [lt_width_iff] at hp
      omega
    unfold proofOf
    split
    · simp only [length_singleton]
      omega
    · obtain ⟨_, _⟩ := ih (lt_width_iff.mpr hstart)
      simp only
      split
      · next hright =>
        obtain ⟨_, _⟩ := ih hright
        rw [lt_width_iff] at hright
        simp only [length_append, length_cons]
        omega
      · next hright =>
        rw [lt_width_iff] at hright
        simp only [length_cons]
        omega

variable {tree : CPartialMerkleTree}

theorem traverseAndExtract_proofOf (hn : xs.length ≤ maxCount) (hmatch : vMatch.length = xs.length) (hnodup : xs.Nodup)
    (hinj : ∀ a b c d, Joins hash 0 xs a b → Joins hash 0 xs c d → hash a b = hash c d → a = c ∧ b = d)
    (htree : tree.nTransactions = xs.length) (hh : h ≤ 15) (hp : p < width xs.length h) {s : Extract}
    {bits' : List Bool} {hashes' : List Uint256}
    (hbits : tree.vBits.drop s.nBitsUsed = (proofOf hash xs vMatch h p).1 ++ bits')
    (hhashes : tree.vHash.drop s.nHashUsed = (proofOf hash xs vMatch h p).2 ++ hashes') :
    ∃ joined, traverseAndExtract hash tree h p s = (node hash 0 xs h p,
      ⟨s.nBitsUsed + (proofOf hash xs vMatch h p).1.length, s.nHashUsed + (proofOf hash xs vMatch h p).2.length,
        s.vMatch ++ (matchedIn vMatch h p).map (xs.getD · 0), s.vnIndex ++ matchedIn vMatch h p, s.fBad, joined⟩) := by
  induction h generalizing p s bits' hashes' with
  | zero =>
    have hbit : tree.vBits[s.nBitsUsed]? = some !(matchedIn vMatch 0 p).isEmpty := by
      rw [← head?_drop, hbits]
      rfl
    have hhash : tree.vHash[s.nHashUsed]? = some (node hash 0 xs 0 p) := by
      rw [← head?_drop, hhashes]
      rfl
    unfold traverseAndExtract
    simp only [hbit, hhash]
    rw [matchedIn_zero]
    cases vMatch.getD p false with
    | false => exact ⟨s.joined, by simp [proofOf]⟩
    | true => exact ⟨s.joined, by simp [proofOf, node]⟩
  | succ h ih =>
    have hleft : p * 2 < width xs.length h := left_lt_width hp
    unfold traverseAndExtract
    cases hempty : (matchedIn vMatch (h + 1) p).isEmpty with
    | true =>
      simp only [proofOf, hempty, if_true] at hbits hhashes ⊢
      have hbit : tree.vBits[s.nBitsUsed]? = some false := by
        rw [← head?_drop, hbits]
        rfl
      have hhash : tree.vHash[s.nHashUsed]? = some (node hash 0 xs (h + 1) p) := by
        rw [← head?_drop, hhashes]
        rfl
      simp only [hbit, hhash]
      exact ⟨s.joined, by simp [isEmpty_iff.mp hempty]⟩
    | false =>
      simp only [proofOf, hempty, Bool.false_eq_true, if_false] at hbits hhashes ⊢
      have hbit : tree.vBits[s.nBitsUsed]? = some true := by
        rw [← head?_drop, hbits]
        split <;> rfl
      simp only [hbit, Bool.not_true, Bool.false_eq_true, if_false, htree, calcTreeWidth_eq hn (show h ≤ 15 by omega)]
      have hdrop : tree.vBits.drop (s.nBitsUsed + 1) = (tree.vBits.drop s.nBitsUsed).drop 1 := by
        rw [drop_drop]
      by_cases hright : p * 2 + 1 < width xs.length h
      · simp only [hright, if_true] at hbits hhashes ⊢
        rw [hbits, cons_append, drop_one, tail_cons, append_assoc] at hdrop
        rw [append_assoc] at hhashes
        obtain ⟨joined, hrun⟩ := ih (s := { s with nBitsUsed := s.nBitsUsed + 1 }) (by omega) hleft hdrop hhashes
        rw [hrun]
        simp only
        obtain ⟨joined', hrun'⟩ := ih (s := ⟨s.nBitsUsed + 1 + (proofOf hash xs vMatch h (p * 2)).1.length,
            s.nHashUsed + (proofOf hash xs vMatch h (p * 2)).2.length,
            s.vMatch ++ (matchedIn vMatch h (p * 2)).map (xs.getD · 0), s.vnIndex ++ matchedIn vMatch h (p * 2),
              s.fBad, joined⟩)
          (by omega) hright (by rw [← drop_drop, hdrop, drop_left]) (by rw [← drop_drop, hhashes, drop_left])
        rw [hrun']
        have hdistinct : node hash 0 xs h (p * 2 + 1) ≠ node hash 0 xs h (p * 2) := by
          intro heq
          have hsame := node_inj hnodup hinj hright hleft heq
          omega
        simp only [beq_eq_false_iff_ne.mpr hdistinct, Bool.or_false]
        refine ⟨joined' ++ [(node hash 0 xs h (p * 2), node hash 0 xs h (p * 2 + 1))], ?_⟩
        rw [node, mul_comm 2 p, if_pos hright, matchedIn_succ]
        simp [add_assoc, add_comm]
      · simp only [hright, if_false] at hbits hhashes ⊢
        rw [hbits, cons_append, drop_one, tail_cons] at hdrop
        obtain ⟨joined, hrun⟩ := ih (s := { s with nBitsUsed := s.nBitsUsed + 1 }) (by omega) hleft hdrop hhashes
        rw [hrun]
        refine ⟨joined ++ [(node hash 0 xs h (p * 2), node hash 0 xs h (p * 2))], ?_⟩
        have hnone : matchedIn vMatch h (p * 2 + 1) = [] := by
          apply matchedIn_beyond
          rw [hmatch]
          omega
        rw [node, mul_comm 2 p, if_neg hright, matchedIn_succ, hnone, append_nil]
        simp [add_assoc, add_comm]

/-! ## What an extraction reports -/

def Uncollided (hash : Uint256 → Uint256 → Uint256) (xs : List Uint256) (joined : List (Uint256 × Uint256)) : Prop :=
  ∀ ab ∈ joined, ∀ c d, Joins hash 0 xs c d → hash ab.1 ab.2 = hash c d → ab = (c, d)

/-- It only adds what is in the list below its node. -/
structure Reports (hash : Uint256 → Uint256 → Uint256) (xs : List Uint256) (h p : Nat) (s s' : Extract)
    (root : Uint256) : Prop where
  bad : s.fBad = true → s'.fBad = true
  joined : s.joined ⊆ s'.joined
  sound : ∃ ms is, s'.vMatch = s.vMatch ++ ms ∧ s'.vnIndex = s.vnIndex ++ is ∧
    (s'.fBad = false → Uncollided hash xs s'.joined → root = node hash 0 xs h p →
      List.Forall₂ (fun x i => xs[i]? = some x) ms is)

theorem Reports.silent {s s' : Extract} {root : Uint256} (hvMatch : s'.vMatch = s.vMatch)
    (hvnIndex : s'.vnIndex = s.vnIndex) (hjoined : s'.joined = s.joined) (hbad : s.fBad = true → s'.fBad = true) :
    Reports hash xs h p s s' root := by
  refine ⟨hbad, ?_, [], [], ?_, ?_, fun _ _ _ => .nil⟩
  · rw [hjoined]
    exact fun _ h => h
  · rw [hvMatch, append_nil]
  · rw [hvnIndex, append_nil]

theorem traverseAndExtract_reports (hn : xs.length ≤ maxCount) (htree : tree.nTransactions = xs.length)
    (hh : h ≤ height xs.length) (hp : p < width xs.length h) (s : Extract) :
    Reports hash xs h p s (traverseAndExtract hash tree h p s).2 (traverseAndExtract hash tree h p s).1 := by
  have hheight := height_le_of_maxCount hn
  induction h generalizing p s with
  | zero =>
    rw [width_zero] at hp
    unfold traverseAndExtract
    cases tree.vBits[s.nBitsUsed]? with
    | none => exact .silent rfl rfl rfl fun _ => rfl
    | some fParentOfMatch =>
      simp only
      cases tree.vHash[s.nHashUsed]? with
      | none => exact .silent rfl rfl rfl fun _ => rfl
      | some x =>
        cases fParentOfMatch with
        | false => exact .silent rfl rfl rfl id
        | true =>
          refine ⟨id, fun _ h => h, [x], [p], rfl, rfl, ?_⟩
          rintro - - hroot
          refine .cons ?_ .nil
          rw [show x = node hash 0 xs 0 p from hroot, node, getD_eq_getElem?_getD, getElem?_eq_getElem hp]
          rfl
  | succ h ih =>
    have hleft : p * 2 < width xs.length h := left_lt_width hp
    have hwide : 1 < width xs.length h := by
      rw [← not_le, ← height_le_iff]
      omega
    have hjoins : Joins hash 0 xs (node hash 0 xs h (2 * p)) _ := ⟨h, p, hwide, by omega, rfl, rfl⟩
    unfold traverseAndExtract
    cases tree.vBits[s.nBitsUsed]? with
    | none => exact .silent rfl rfl rfl fun _ => rfl
    | some fParentOfMatch =>
      cases fParentOfMatch with
      | false =>
        simp only [Bool.not_false, if_true]
        cases tree.vHash[s.nHashUsed]? with
        | none => exact .silent rfl rfl rfl fun _ => rfl
        | some x => exact .silent rfl rfl rfl id
      | true =>
        simp only [Bool.not_true, Bool.false_eq_true, if_false]
        simp only [htree, calcTreeWidth_eq hn (show h ≤ 15 by omega)]
        have hstep := ih (by omega) hleft { s with nBitsUsed := s.nBitsUsed + 1 }
        generalize traverseAndExtract hash tree h (p * 2) { s with nBitsUsed := s.nBitsUsed + 1 } = left at hstep ⊢
        obtain ⟨hbad, hsub, ms, is, hms, his, hsound⟩ := hstep
        split
        · next hright =>
          have hstep' := ih (by omega) hright left.2
          generalize traverseAndExtract hash tree h (p * 2 + 1) left.2 = right at hstep' ⊢
          obtain ⟨hbad', hsub', ms', is', hms', his', hsound'⟩ := hstep'
          refine ⟨fun h => by simp [hbad' (hbad h)], ?_, ms ++ ms', is ++ is', ?_, ?_, ?_⟩
          · exact fun ab hab => mem_append_left _ (hsub' (hsub hab))
          · change right.2.vMatch = _
            rw [hms', hms, append_assoc]
          · change right.2.vnIndex = _
            rw [his', his, append_assoc]
          · intro hgood huncollided hroot
            have hgood' : right.2.fBad = false := (Bool.or_eq_false_iff.mp hgood).1
            have hgood'' : left.2.fBad = false := Bool.eq_false_iff.mpr fun h => by simp [hbad' h] at hgood'
            have hpair := huncollided (left.1, right.1) (by simp) _ _ hjoins hroot
            rw [mul_comm 2 p, if_pos hright, Prod.mk.injEq] at hpair
            apply rel_append
            · exact hsound hgood'' (fun ab hab => huncollided ab (mem_append_left _ (hsub' hab))) hpair.1
            · exact hsound' hgood' (fun ab hab => huncollided ab (mem_append_left _ hab)) hpair.2
        · next hright =>
          refine ⟨hbad, fun ab hab => mem_append_left _ (hsub hab), ms, is, hms, his, ?_⟩
          intro hgood huncollided hroot
          have hpair := huncollided (left.1, left.1) (by simp) _ _ hjoins hroot
          rw [mul_comm 2 p, if_neg hright, Prod.mk.injEq] at hpair
          exact hsound hgood (fun ab hab => huncollided ab (mem_append_left _ hab)) hpair.1

/-! ## Whole trees -/

def matched (vMatch : List Bool) : List Nat := (List.range vMatch.length).filter fun q => vMatch.getD q false

theorem matchedIn_root : matchedIn vMatch (height vMatch.length) 0 = matched vMatch := by
  have hle : vMatch.length ≤ 1 * 2 ^ height vMatch.length := (width_le_iff 1).mp (height_le_iff.mp le_rfl)
  have hsplit : range' 0 (2 ^ height vMatch.length) =
      range' 0 vMatch.length ++ range' (0 + vMatch.length) (2 ^ height vMatch.length - vMatch.length) := by
    rw [range'_append_1]
    congr 1
    omega
  unfold matchedIn matched
  rw [zero_mul, hsplit, filter_append, filter_beyond (Nat.le_add_left _ 0), append_nil, range_eq_range']

theorem extractMatches_proofOf (hpos : xs ≠ []) (hn : xs.length ≤ maxCount) (hmatch : vMatch.length = xs.length)
    (hnodup : xs.Nodup) (hinj : ∀ a b c d, Joins hash 0 xs a b → Joins hash 0 xs c d → hash a b = hash c d →
      a = c ∧ b = d) (vnIndex : List Nat)
    {padding : List Bool} (hpadding : (proofOf hash xs vMatch (height xs.length) 0).1.length + padding.length =
      ((proofOf hash xs vMatch (height xs.length) 0).1.length + 7) / 8 * 8) :
    ∃ joined, extractMatches hash ⟨xs.length, (proofOf hash xs vMatch (height xs.length) 0).1 ++ padding,
        (proofOf hash xs vMatch (height xs.length) 0).2, false⟩ vnIndex =
      ⟨node hash 0 xs (height xs.length) 0, (matched vMatch).map (xs.getD · 0), vnIndex ++ matched vMatch, joined⟩ := by
  have hlength := length_pos_iff.mpr hpos
  have hwidth : 0 < width xs.length (height xs.length) := by
    rw [lt_width_iff, zero_mul]
    exact hlength
  obtain ⟨_, _⟩ := proofOf_length hash vMatch hwidth
  obtain ⟨joined, hrun⟩ : ∃ joined,
      traverseAndExtract hash ⟨xs.length, (proofOf hash xs vMatch (height xs.length) 0).1 ++ padding,
      (proofOf hash xs vMatch (height xs.length) 0).2, false⟩ (height xs.length) 0 { vnIndex, fBad := false } = _ :=
    traverseAndExtract_proofOf hn hmatch hnodup hinj rfl (height_le_of_maxCount hn) hwidth rfl (append_nil _).symm
  refine ⟨joined, ?_⟩
  have hmax : ¬ xs.length > MAX_BLOCK_WEIGHT / MIN_TRANSACTION_WEIGHT := not_lt.mpr hn
  unfold extractMatches
  simp only [calcHeight_eq hn]
  rw [hrun, if_neg (by omega), if_neg hmax, if_neg (by omega), if_neg (by simp only [length_append]; omega),
    if_neg (by simp), if_neg (by simp only [length_append]; omega), if_neg (by simp), ← hmatch, matchedIn_root]
  simp

theorem extractMatches_of_root {vnIndex : List Nat} (hroot : (extractMatches hash tree vnIndex).root ≠ 0) :
    let r := traverseAndExtract hash tree (calcHeight tree.nTransactions) 0 { vnIndex, fBad := tree.fBad }
    r.2.fBad = false ∧ extractMatches hash tree vnIndex = ⟨r.1, r.2.vMatch, r.2.vnIndex, r.2.joined⟩ := by
  unfold extractMatches at hroot ⊢
  simp only at hroot ⊢
  generalize traverseAndExtract hash tree (calcHeight tree.nTransactions) 0 { vnIndex, fBad := tree.fBad } =
    r at hroot ⊢
  split at hroot
  · exact absurd rfl hroot
  · next hsome =>
    split at hroot
    · exact absurd rfl hroot
    · next hmax =>
      split at hroot
      · exact absurd rfl hroot
      · next hhashes =>
        split at hroot
        · exact absurd rfl hroot
        · next hbits =>
          split at hroot
          · exact absurd rfl hroot
          · next hgood =>
            split at hroot
            · exact absurd rfl hroot
            · next hbitsUsed =>
              split at hroot
              · exact absurd rfl hroot
              · next hhashUsed =>
                refine ⟨by simpa using hgood, ?_⟩
                rw [if_neg hsome, if_neg hmax, if_neg hhashes, if_neg hbits, if_neg hgood, if_neg hbitsUsed,
                  if_neg hhashUsed]

/-- Trees prove what was matched, and only what is in the list. -/
theorem partialMerkleTree_proves (hash : Uint256 → Uint256 → Uint256) (txids : List Uint256) (hpos : txids ≠ [])
    (hnodup : txids.Nodup) (hsize : txids.length ≤ MAX_BLOCK_WEIGHT / MIN_TRANSACTION_WEIGHT)
    (hinj : ∀ a b c d, Joins hash 0 txids a b → Joins hash 0 txids c d → hash a b = hash c d → a = c ∧ b = d) :
    (∀ vMatch vnIndex, vMatch.length = txids.length → ∃ tree, CPartialMerkleTree.new hash txids vMatch = .ok tree ∧
      (extractMatches hash { tree with vBits := bytesToBits (bitsToBytes tree.vBits) } vnIndex).root =
      (computeMerkleRoot hash txids).1 ∧
      (extractMatches hash { tree with vBits := bytesToBits (bitsToBytes tree.vBits) } vnIndex).vMatch =
        (matched vMatch).map (txids.getD · 0) ∧
      (extractMatches hash { tree with vBits := bytesToBits (bitsToBytes tree.vBits) } vnIndex).vnIndex =
        vnIndex ++ matched vMatch) ∧
    ∀ tree vnIndex, tree.nTransactions = txids.length →
      Uncollided hash txids (extractMatches hash tree vnIndex).joined →
      (extractMatches hash tree vnIndex).root = (computeMerkleRoot hash txids).1 →
        (computeMerkleRoot hash txids).1 ≠ 0 →
      ∃ indices, (extractMatches hash tree vnIndex).vnIndex = vnIndex ++ indices ∧
        List.Forall₂ (fun txid i => txids[i]? = some txid) (extractMatches hash tree vnIndex).vMatch indices := by
  have hlength := length_pos_iff.mpr hpos
  have hwidth : 0 < width txids.length (height txids.length) := by
    rw [lt_width_iff, zero_mul]
    exact hlength
  have hheight := height_le_of_maxCount hsize
  have hroot : (computeMerkleRoot hash txids).1 = node hash 0 txids (height txids.length) 0 :=
      computeMerkleRoot_fst hpos
  constructor
  · intro vMatch vnIndex hmatch
    have hbuild : traverseAndBuild hash txids vMatch (height txids.length) 0 ⟨txids.length, [], [], false⟩ =
        .ok ⟨txids.length, (proofOf hash txids vMatch (height txids.length) 0).1,
          (proofOf hash txids vMatch (height txids.length) 0).2, false⟩ :=
      traverseAndBuild_eq hpos hsize hmatch hheight hwidth ⟨txids.length, [], [], false⟩ rfl
    obtain ⟨_, hbits, hpadding⟩ := bytesToBits_bitsToBytes (proofOf hash txids vMatch (height txids.length) 0).1
    obtain ⟨joined, hextract⟩ := extractMatches_proofOf hpos hsize hmatch hnodup hinj vnIndex hpadding
    refine ⟨⟨txids.length, (proofOf hash txids vMatch (height txids.length) 0).1,
      (proofOf hash txids vMatch (height txids.length) 0).2, false⟩, ?_, ?_⟩
    · have hmod : txids.length % 2 ^ 32 = txids.length := by
        have hmax : txids.length ≤ 16666 := hsize.trans (by decide)
        exact mod_eq_of_lt (by omega)
      unfold CPartialMerkleTree.new
      simp only [hmod]
      rw [calcHeight_eq hsize]
      exact hbuild
    · simp only [hbits, hextract, hroot, and_self]
  · intro tree vnIndex htree huncollided hextract hnull
    rw [← hextract] at hnull
    obtain ⟨hgood, heq⟩ := extractMatches_of_root hnull
    have hheights : calcHeight tree.nTransactions = height txids.length := by rw [htree, calcHeight_eq hsize]
    rw [hheights] at hgood heq
    rw [heq] at hextract huncollided ⊢
    obtain ⟨-, -, _, is, hms, his, hsound⟩ :=
      traverseAndExtract_reports hsize htree le_rfl hwidth { vnIndex, fBad := tree.fBad }
    refine ⟨is, his, ?_⟩
    simp only [nil_append] at hms
    simp only [hms]
    exact hsound hgood huncollided (hextract.trans hroot)

/-- Two transactions, the second one matched. -/
theorem second_of_two_proved : ∃ tree, CPartialMerkleTree.new Pool.hashPair [1, 2] [false, true] = .ok tree ∧
    (extractMatches Pool.hashPair { tree with vBits := bytesToBits (bitsToBytes tree.vBits) } []).root =
      (computeMerkleRoot Pool.hashPair [1, 2]).1 ∧
    (extractMatches Pool.hashPair { tree with vBits := bytesToBits (bitsToBytes tree.vBits) } []).vMatch = [2] ∧
    (extractMatches Pool.hashPair { tree with vBits := bytesToBits (bitsToBytes tree.vBits) } []).vnIndex = [1] := by
  have hinj : ∀ a b c d, Joins Pool.hashPair 0 [1, 2] a b → Joins Pool.hashPair 0 [1, 2] c d →
      Pool.hashPair a b = Pool.hashPair c d → a = c ∧ b = d := by
    intro a b c d hab hcd _
    obtain ⟨rfl, rfl⟩ := joins_two hab
    obtain ⟨rfl, rfl⟩ := joins_two hcd
    exact ⟨rfl, rfl⟩
  exact (partialMerkleTree_proves Pool.hashPair [1, 2] (by simp) (by simp) (by decide) hinj).1 [false, true] [] rfl

/-- The unread byte fails, and the null hash returned is the root. -/
theorem null_root_reports_anything : let tree : CPartialMerkleTree := ⟨1, true :: List.replicate 8 false, [5], false⟩
    ([0] : List Uint256).Nodup ∧ (∀ a b, ¬Joins Pool.hashPair 0 [0] a b) ∧
      (extractMatches Pool.hashPair tree []).joined = [] ∧
      (extractMatches Pool.hashPair tree []).root = (computeMerkleRoot Pool.hashPair [0]).1 ∧
      (extractMatches Pool.hashPair tree []).vMatch = [5] ∧ (extractMatches Pool.hashPair tree []).vnIndex = [0] ∧
      ([0] : List Uint256)[0]? ≠ some 5 := by
  refine ⟨by simp, ?_, by decide, by decide, by decide, by decide, by simp⟩
  rintro a b ⟨h, _, hwide, -⟩
  rw [lt_width_iff, length_singleton] at hwide
  have hpow : 0 < 2 ^ h := Nat.two_pow_pos h
  omega

end FullNode.Merkle
