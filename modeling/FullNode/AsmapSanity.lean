import FullNode.Asmap

/-!
# A sane map can be interpreted

The check meets every instruction with the number of address bits that are left there, and every jump that it passes
leads to an instruction it meets later.
-/

namespace FullNode.Asmap

variable {asmap ip : List Bool} {pos p q n size val fuel : Nat} {s s' : Scan} {opcode : Instruction}

/-! ## Decoding -/

theorem bitAt_ok {v : List Bool} (h : pos < v.length) : ∃ bit, bitAt v pos = .ok bit := by
  unfold bitAt
  rw [List.getElem?_eq_getElem h]
  exact ⟨_, rfl⟩

theorem decodeMantissa_spec (size val : Nat) (h : pos ≤ asmap.length) :
    ∃ v q, decodeMantissa asmap size pos val = .ok (v, q) ∧ pos ≤ q ∧ q ≤ asmap.length := by
  induction size generalizing pos val with
  | zero => exact ⟨_, _, rfl, le_rfl, h⟩
  | succ size ih =>
    unfold decodeMantissa
    split
    · exact ⟨_, _, rfl, le_rfl, h⟩
    · next hpos =>
      obtain ⟨bit, hbit⟩ := bitAt_ok (show pos < asmap.length by omega)
      obtain ⟨v, q, hrun, _, hend⟩ := ih (val + bit.toNat <<< size) (show pos + 1 ≤ asmap.length by omega)
      rw [hbit, ok_bind]
      exact ⟨v, q, hrun, by omega, hend⟩

theorem decodeBits_spec (sizes : List Nat) (val : Nat) (h : pos ≤ asmap.length) :
    ∃ v q, decodeBits asmap sizes pos val = .ok (v, q) ∧ pos ≤ q ∧ q ≤ asmap.length := by
  fun_induction decodeBits asmap sizes pos val with
  | case1 => exact ⟨_, _, rfl, le_rfl, h⟩
  | case2 size pos val => exact decodeMantissa_spec size val h
  | case3 => exact ⟨_, _, rfl, le_rfl, h⟩
  | case4 size size' sizes pos val hpos ih =>
    obtain ⟨bit, hbit⟩ := bitAt_ok (show pos < asmap.length by omega)
    rw [hbit, ok_bind]
    cases bit with
    | true =>
      obtain ⟨v, q, hrun, hle, hend⟩ := ih (by omega)
      exact ⟨v, q, hrun, by omega, hend⟩
    | false =>
      obtain ⟨v, q, hrun, hle, hend⟩ := decodeMantissa_spec size val (show pos + 1 ≤ asmap.length by omega)
      exact ⟨v, q, hrun, by omega, hend⟩

theorem decodeType_spec (h : pos < asmap.length) : ∃ opcode p, decodeType asmap pos = .ok (opcode, p) ∧ pos < p ∧
    p ≤ asmap.length := by
  obtain ⟨bit, hbit⟩ := bitAt_ok h
  unfold decodeType TYPE_BIT_SIZES decodeBits
  rw [if_neg (by omega), hbit, ok_bind]
  cases bit with
  | true =>
    obtain ⟨_, q, hrun, _, hend⟩ := decodeBits_spec [0, 1] (0 + 1 <<< 0) (show pos + 1 ≤ asmap.length by omega)
    rw [if_pos rfl, hrun, ok_bind]
    exact ⟨_, q, rfl, by omega, hend⟩
  | false => exact ⟨_, pos + 1, rfl, by omega, h⟩

theorem decodeType_pos (hrun : decodeType asmap pos = .ok (opcode, p)) (h : pos < asmap.length) :
    pos < p ∧ p ≤ asmap.length := by
  obtain ⟨_, _, hrun', hpos⟩ := decodeType_spec h
  cases hrun.symm.trans hrun'
  exact hpos

theorem decodeBits_pos {sizes : List Nat} {v : Nat} (hrun : decodeBits asmap sizes pos val = .ok (v, q))
    (h : pos ≤ asmap.length) : pos ≤ q ∧ q ≤ asmap.length := by
  obtain ⟨_, _, hrun', hpos⟩ := decodeBits_spec sizes val h
  cases hrun.symm.trans hrun'
  exact hpos

/-! ## One step of the check -/

inductive Scans (asmap : List Bool) (s : Scan) : Scan ⊕ Bool → Prop where
  | stop : Scans asmap s (.inr false)
  | finish (p q asn : Nat) (sane : Bool) : decodeType asmap s.pos = .ok (.return_, p) →
      decodeASN asmap p = .ok (asn, q) → asn ≠ INVALID → s.jumps = [] → Scans asmap s (.inr sane)
  | resume (p q asn : Nat) (jump : Nat × Nat) (jumps : List (Nat × Nat)) : decodeType asmap s.pos = .ok (.return_, p) →
      decodeASN asmap p = .ok (asn, q) → asn ≠ INVALID → s.jumps = jump :: jumps → offset q = jump.1 →
      Scans asmap s (.inl { s with pos := q, bits := jump.2, jumps, prevopcode := .jump })
  | jump (p q n : Nat) : decodeType asmap s.pos = .ok (.jump, p) → decodeJump asmap p = .ok (n, q) → n ≠ INVALID →
      n ≤ asmap.length - q → s.bits ≠ 0 → Scans asmap s (.inl { s with
        pos := q, bits := s.bits - 1, jumps := (offset (q + n), s.bits - 1) :: s.jumps, prevopcode := .jump })
  | match_ (p q m : Nat) : decodeType asmap s.pos = .ok (.match_, p) → decodeMatch asmap p = .ok (m, q) → m ≠ INVALID →
      Nat.log2 m ≤ s.bits → Scans asmap s (.inl { s with
        pos := q, bits := s.bits - Nat.log2 m, prevopcode := .match_, hadIncompleteMatch := Nat.log2 m < 8 })
  | default_ (p q asn : Nat) : decodeType asmap s.pos = .ok (.default_, p) → decodeASN asmap p = .ok (asn, q) →
      asn ≠ INVALID → Scans asmap s (.inl { s with pos := q, prevopcode := .default_ })

theorem sanityStep_spec (h : s.pos < asmap.length) : ∃ r, sanityStep asmap s = .ok r ∧ Scans asmap s r := by
  obtain ⟨opcode, p, htype, -, hp⟩ := decodeType_spec h
  obtain ⟨asn, q, hasn, -, -⟩ := decodeBits_spec ASN_BIT_SIZES 1 hp
  unfold sanityStep
  split
  · exact ⟨_, rfl, .stop⟩
  · rw [htype, ok_bind]
    cases opcode with
    | return_ =>
      simp only
      split
      · exact ⟨_, rfl, .stop⟩
      · rw [decodeASN, hasn, ok_bind]
        simp only
        split
        · exact ⟨_, rfl, .stop⟩
        · next hvalid =>
          cases hjumps : s.jumps with
          | nil => exact ⟨_, rfl, .finish p q asn _ htype hasn hvalid hjumps⟩
          | cons jump jumps =>
            simp only
            split
            · exact ⟨_, rfl, .stop⟩
            · next hoffset => exact ⟨_, rfl, .resume p q asn jump jumps htype hasn hvalid hjumps (not_not.mp hoffset)⟩
    | jump =>
      obtain ⟨n, q, hjump, -, -⟩ := decodeBits_spec JUMP_BIT_SIZES 17 hp
      simp only
      rw [decodeJump, hjump, ok_bind]
      simp only
      split
      · exact ⟨_, rfl, .stop⟩
      · next hvalid =>
        split
        · exact ⟨_, rfl, .stop⟩
        · next hrange =>
          split
          · exact ⟨_, rfl, .stop⟩
          · next hbits =>
            split
            · exact ⟨_, rfl, .stop⟩
            · exact ⟨_, rfl, .jump p q n htype hjump hvalid (Nat.not_lt.mp hrange) hbits⟩
    | match_ =>
      obtain ⟨m, q, hmatch, -, -⟩ := decodeBits_spec MATCH_BIT_SIZES 2 hp
      simp only
      rw [decodeMatch, hmatch, ok_bind]
      simp only
      generalize (if s.prevopcode ≠ .match_ then false else s.hadIncompleteMatch) = hadIncompleteMatch
      split
      · exact ⟨_, rfl, .stop⟩
      · next hvalid =>
        split
        · exact ⟨_, rfl, .stop⟩
        · split
          · exact ⟨_, rfl, .stop⟩
          · next hbits => exact ⟨_, rfl, .match_ p q m htype hmatch hvalid (Nat.not_lt.mp hbits)⟩
    | default_ =>
      simp only
      split
      · exact ⟨_, rfl, .stop⟩
      · rw [decodeASN, hasn, ok_bind]
        simp only
        split
        · exact ⟨_, rfl, .stop⟩
        · next hvalid => exact ⟨_, rfl, .default_ p q asn htype hasn hvalid⟩
    | invalid => exact ⟨_, rfl, .stop⟩

theorem Scans.pos_lt (hscans : Scans asmap s (.inl s')) (h : s.pos < asmap.length) :
    s.pos < s'.pos ∧ s'.pos ≤ asmap.length := by
  cases hscans with
  | resume p q asn jump jumps htype hasn =>
    obtain ⟨hlt, hp⟩ := decodeType_pos htype h
    obtain ⟨hle, hq⟩ := decodeBits_pos hasn hp
    exact ⟨Nat.lt_of_lt_of_le hlt hle, hq⟩
  | jump p q n htype hjump =>
    obtain ⟨hlt, hp⟩ := decodeType_pos htype h
    obtain ⟨hle, hq⟩ := decodeBits_pos hjump hp
    exact ⟨Nat.lt_of_lt_of_le hlt hle, hq⟩
  | match_ p q m htype hmatch =>
    obtain ⟨hlt, hp⟩ := decodeType_pos htype h
    obtain ⟨hle, hq⟩ := decodeBits_pos hmatch hp
    exact ⟨Nat.lt_of_lt_of_le hlt hle, hq⟩
  | default_ p q asn htype hasn =>
    obtain ⟨hlt, hp⟩ := decodeType_pos htype h
    obtain ⟨hle, hq⟩ := decodeBits_pos hasn hp
    exact ⟨Nat.lt_of_lt_of_le hlt hle, hq⟩

/-! ## The whole check -/

theorem sanityLoop_ok (h : s.pos ≤ asmap.length) (hfuel : asmap.length - s.pos < fuel) :
    ∃ sane, sanityLoop asmap fuel s = .ok sane := by
  induction fuel generalizing s with
  | zero => omega
  | succ fuel ih =>
    unfold sanityLoop
    split
    · exact ⟨_, rfl⟩
    · next hpos =>
      obtain ⟨r, hrun, hscans⟩ := sanityStep_spec (show s.pos < asmap.length by omega)
      rw [hrun, ok_bind]
      cases r with
      | inl s' =>
        obtain ⟨_, hend⟩ := hscans.pos_lt (by omega)
        exact ih hend (by omega)
      | inr sane => exact ⟨sane, rfl⟩

/-- The check goes on from `s` and ends well. -/
def Sane (asmap : List Bool) (s : Scan) : Prop := s.pos ≤ asmap.length ∧ ∃ fuel, sanityLoop asmap fuel s = .ok true

theorem Sane.step (hs : Sane asmap s) : s.pos < asmap.length ∧
    ((∃ p q asn, decodeType asmap s.pos = .ok (.return_, p) ∧ decodeASN asmap p = .ok (asn, q) ∧ asn ≠ INVALID ∧
      s.jumps = []) ∨ ∃ s', Scans asmap s (.inl s') ∧ s.pos < s'.pos ∧ Sane asmap s') := by
  obtain ⟨_, fuel, hrun⟩ := hs
  cases fuel with
  | zero => cases hrun
  | succ fuel =>
    unfold sanityLoop at hrun
    split at hrun
    · cases hrun
    · next hne =>
      have hlt : s.pos < asmap.length := by omega
      refine ⟨hlt, ?_⟩
      obtain ⟨r, hstep, hscans⟩ := sanityStep_spec hlt
      rw [hstep, ok_bind] at hrun
      cases r with
      | inl s' =>
        obtain ⟨hlt', hend⟩ := hscans.pos_lt hlt
        exact .inr ⟨s', hscans, hlt', hend, fuel, hrun⟩
      | inr sane =>
        obtain rfl : sane = true := Except.ok.inj hrun
        cases hscans with
        | finish p q asn _ htype hasn hvalid hjumps => exact .inl ⟨p, q, asn, htype, hasn, hvalid, hjumps⟩

theorem Sane.reached (hlength : asmap.length < 2 ^ 32) (hs : Sane asmap s) :
    ∀ jump ∈ s.jumps, ∃ s', s'.pos = jump.1 ∧ s'.bits = jump.2 ∧ Sane asmap s' := by
  induction hleft : asmap.length - s.pos using Nat.strong_induction_on generalizing s with
  | _ left ih =>
    intro jump hjump
    obtain ⟨_, ⟨_, _, _, _, _, _, hjumps⟩ | ⟨s', hscans, _, hs'⟩⟩ := hs.step
    · rw [hjumps] at hjump
      cases hjump
    · have hend := hs'.1
      have hrest := ih (asmap.length - s'.pos) (by omega) hs' rfl
      cases hscans with
      | resume p q asn first jumps _ _ _ hjumps hoffset =>
        rw [hjumps] at hjump
        rcases List.mem_cons.mp hjump with rfl | hjump
        · -- the check goes on where this jump leads
          refine ⟨_, ?_, rfl, hs'⟩
          rw [← hoffset, offset, Nat.mod_eq_of_lt (Nat.lt_of_le_of_lt hend hlength)]
        · exact hrest jump hjump
      | jump p q n => exact hrest jump (List.mem_cons_of_mem _ hjump)
      | match_ p q m | default_ p q asn => exact hrest jump hjump

/-! ## Interpretation -/

def IsAsn (asmap : List Bool) (asn : Nat) : Prop := ∃ pos next, decodeASN asmap pos = .ok (asn, next) ∧ asn ≠ INVALID

theorem matchBits_spec {m matchlen bits : Nat} (hlen : matchlen ≤ bits) (hbits : bits ≤ ip.length) :
    matchBits ip m matchlen bits = .ok none ∨ matchBits ip m matchlen bits = .ok (some (bits - matchlen)) := by
  induction matchlen generalizing bits with
  | zero => exact .inr rfl
  | succ matchlen ih =>
    obtain ⟨_, hbit⟩ := bitAt_ok (show ip.length - bits < ip.length by omega)
    unfold matchBits
    rw [hbit, ok_bind]
    split
    · exact .inl rfl
    · rw [show bits - (matchlen + 1) = bits - 1 - matchlen by omega]
      exact ih (by omega) (by omega)

theorem interpretLoop_sane (hlength : asmap.length < 2 ^ 32) (hs : Sane asmap s) (hbits : s.bits ≤ ip.length)
    (hfuel : asmap.length - s.pos < fuel) (defaultAsn : Nat) :
    ∃ r, interpretLoop asmap ip fuel s.pos s.bits defaultAsn = .ok r ∧ (r = defaultAsn ∨ IsAsn asmap r) := by
  induction hleft : asmap.length - s.pos using Nat.strong_induction_on generalizing s fuel defaultAsn with
  | _ left ih =>
    obtain ⟨fuel, rfl⟩ : ∃ n, fuel = n + 1 := ⟨fuel - 1, by omega⟩
    obtain ⟨_, ⟨p, q, asn, htype, hasn, hvalid, -⟩ | ⟨_, hscans, hlt, hs'⟩⟩ := hs.step
    · unfold interpretLoop
      rw [if_neg (by omega), htype, ok_bind]
      simp only
      rw [hasn, ok_bind]
      exact ⟨asn, if_neg hvalid, .inr ⟨p, q, hasn, hvalid⟩⟩
    · have hend := hs'.1
      unfold interpretLoop
      rw [if_neg (by omega)]
      cases hscans with
      | resume p q asn first jumps htype hasn hvalid =>
        rw [htype, ok_bind]
        simp only
        rw [hasn, ok_bind]
        exact ⟨asn, if_neg hvalid, .inr ⟨p, q, hasn, hvalid⟩⟩
      | jump p q n htype hjump hvalid hrange hsome =>
        -- where the jump leads is checked too, so it is before the end
        obtain ⟨t, htpos, htbits, ht⟩ := hs'.reached hlength _ List.mem_cons_self
        have htlt := ht.step.1
        simp only at htpos htbits hend hlt
        rw [offset, Nat.mod_eq_of_lt (show q + n < 2 ^ 32 by omega)] at htpos
        obtain ⟨bit, hbit⟩ := bitAt_ok (show ip.length - s.bits < ip.length by omega)
        rw [htype, ok_bind]
        simp only
        rw [hjump, ok_bind]
        simp only
        rw [if_neg hvalid, if_neg hsome, if_neg (by omega), hbit, ok_bind]
        cases bit with
        | true =>
          rw [if_pos rfl, advance, if_pos (by omega), ok_bind, ← htpos, ← htbits]
          exact ih (asmap.length - t.pos) (by omega) ht (by omega) (by omega) defaultAsn rfl
        | false =>
          rw [if_neg (by simp), ok_bind]
          exact ih (asmap.length - q) (by omega) hs' (by simp only; omega) (by simp only; omega) defaultAsn rfl
      | match_ p q m htype hmatch hvalid hlen =>
        simp only at hend hlt
        rw [htype, ok_bind]
        simp only
        rw [hmatch, ok_bind]
        simp only
        rw [if_neg hvalid, if_neg (Nat.not_lt.mpr hlen)]
        rcases matchBits_spec hlen hbits with hnone | hsome
        · rw [hnone, ok_bind]
          exact ⟨defaultAsn, rfl, .inl rfl⟩
        · rw [hsome, ok_bind]
          exact ih (asmap.length - q) (by omega) hs' (by simp only; omega) (by simp only; omega) defaultAsn rfl
      | default_ p q asn htype hasn hvalid =>
        simp only at hend hlt
        rw [htype, ok_bind]
        simp only
        rw [hasn, ok_bind]
        simp only
        rw [if_neg hvalid]
        obtain ⟨r, hrun, hr⟩ := ih (asmap.length - q) (by omega) hs' hbits (show asmap.length - q <
            fuel by omega) asn rfl
        refine ⟨r, hrun, .inr ?_⟩
        rcases hr with rfl | hr
        · exact ⟨p, q, hasn, hvalid⟩
        · exact hr

/-- The check ends, and a map that passes gives every address an ASN of its own, or 0. -/
theorem sane_interpretable (asmap : List Bool) (n : Nat) : (∃ sane, sanityCheckASMap asmap n = .ok sane) ∧
    (asmap.length < 2 ^ 32 → n ≤ 128 → sanityCheckASMap asmap n = .ok true → ∀ ip : List Bool, ip.length = n →
      ∃ asn, interpret asmap ip = .ok asn ∧ (asn = 0 ∨ IsAsn asmap asn)) := by
  constructor
  · exact sanityLoop_ok (Nat.zero_le _) (Nat.lt_succ_self _)
  · rintro hlength hn hsane ip rfl
    have hs : Sane asmap { pos := 0, bits := ip.length } := ⟨Nat.zero_le _, _, hsane⟩
    unfold interpret
    rw [Nat.mod_eq_of_lt (show ip.length < 2 ^ 8 by omega)]
    exact interpretLoop_sane hlength hs le_rfl (Nat.lt_succ_self _) 0

/-- A jump over `RETURN 5` to `RETURN 9`. -/
def jumpMap : List Bool :=
  [true, false, false] ++ List.replicate 5 false ++
    ([false, false] ++ List.replicate 12 false ++ [true, false, false]) ++
    ([false, false] ++ List.replicate 11 false ++ [true, false, false, false])

theorem jumpMap_interpretable : sanityCheckASMap jumpMap 1 = .ok true ∧ interpret jumpMap [false] = .ok 5 ∧
    interpret jumpMap [true] = .ok 9 ∧
    ∀ ip : List Bool, ip.length = 1 → ∃ asn, interpret jumpMap ip = .ok asn ∧ (asn = 0 ∨ IsAsn jumpMap asn) :=
  ⟨by decide, by decide, by decide, (sane_interpretable jumpMap 1).2 (by decide) (by decide) (by decide)⟩

end FullNode.Asmap
