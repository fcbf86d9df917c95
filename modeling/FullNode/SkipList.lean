import FullNode.Chain

/-! # Ancestors as iterated parents -/

namespace FullNode.CBlockIndex

open Function

variable {a b c d : CBlockIndex}

/-! ## The code -/

def walkTogether : CBlockIndex → CBlockIndex → CBlockIndex × CBlockIndex
  | null, pb => (null, pb)
  | mk e pprev pskip, pb =>
    if mk e pprev pskip ≠ pb ∧ !pb.isNull then walkTogether pprev pb.pprev else (mk e pprev pskip, pb)

def lastCommonAncestor (pa pb : CBlockIndex) : Checked CBlockIndex := do
  let (pa, pb) ←
    if pa.nHeight > pb.nHeight then do
      let pa ← pa.getAncestor pb.nHeight
      pure (pa, pb)
    else if pb.nHeight > pa.nHeight then do
      let pb ← pb.getAncestor pa.nHeight
      pure (pa, pb)
    else pure (pa, pb)
  let (pa, pb) := walkTogether pa pb
  check (pa == pb)
  return pa

/-! ## Iterated parents -/

def IsAncestor (a b : CBlockIndex) : Prop := a ≠ null ∧ ∃ n, pprev^[n] b = a

theorem IsAncestor.refl (h : a ≠ null) : IsAncestor a a := ⟨h, 0, rfl⟩

theorem iterate_pprev_null (n : Nat) : pprev^[n] null = null := by
  induction n with
  | zero => rfl
  | succ n ih => rw [iterate_succ_apply, pprev, ih]

variable {e : BlockEntry} {height : Nat} {p s : CBlockIndex}

theorem isAncestor_mk : IsAncestor a (mk e p s) ↔ a = mk e p s ∨ IsAncestor a p := by
  constructor
  · rintro ⟨hne, n, hn⟩
    cases n with
    | zero => exact Or.inl hn.symm
    | succ n =>
      rw [iterate_succ_apply] at hn
      exact Or.inr ⟨hne, n, hn⟩
  · rintro (rfl | ⟨hne, n, hn⟩)
    · exact IsAncestor.refl (by simp)
    · exact ⟨hne, n + 1, by rw [iterate_succ_apply]; exact hn⟩

theorem not_isAncestor_null : ¬ IsAncestor a null := by
  rintro ⟨hne, _, hn⟩
  rw [iterate_pprev_null] at hn
  exact hne hn.symm

theorem Linked.height_mk (h : Linked (mk e p s)) (hne : p ≠ null) : e.nHeight = p.nHeight + 1 := by
  have hheight := h.2.1
  rwa [if_neg (by simpa [isNull_iff] using hne)] at hheight

theorem IsAncestor.ne_null (h : IsAncestor a b) : b ≠ null := by
  rintro rfl
  exact not_isAncestor_null h

section

variable (hb : Linked b)
include hb

theorem IsAncestor.height_le (h : IsAncestor a b) : a.nHeight ≤ b.nHeight := by
  induction b with
  | null => exact absurd h not_isAncestor_null
  | mk e p s ihp _ =>
    rcases isAncestor_mk.mp h with rfl | hp
    · exact le_rfl
    · have hheight := hb.height_mk hp.ne_null
      have hle := ihp hb.parent hp
      simp only [nHeight_mk]
      omega

theorem IsAncestor.eq_ancestor (h : IsAncestor a b) : a = b.ancestor a.nHeight := by
  induction b with
  | null => exact absurd h not_isAncestor_null
  | mk e p s ihp _ =>
    rcases isAncestor_mk.mp h with rfl | hp
    · exact (ancestor_self _ _ le_rfl).symm
    · have hheight := hb.height_mk hp.ne_null
      have hle := hp.height_le hb.parent
      rw [ancestor_mk e p s _ (by omega)]
      exact ihp hb.parent hp

theorem Linked.ancestor_eq_iterate (hne : b ≠ null) (h : height ≤ b.nHeight) :
    b.ancestor height = pprev^[b.nHeight - height] b := by
  induction b with
  | null => exact absurd rfl hne
  | mk e p s ihp _ =>
    rcases Nat.lt_or_ge height e.nHeight with hlt | hge
    · have hpne : p ≠ null := by
        rintro rfl
        have hheight := hb.2.1
        simp [isNull] at hheight
        omega
      have hheight := hb.height_mk hpne
      have hsteps : e.nHeight - height = p.nHeight - height + 1 := by omega
      rw [ancestor_mk e p s height hlt, ihp hb.parent hpne (by omega), nHeight_mk, hsteps, iterate_succ_apply, pprev_mk]
    · have hsteps : e.nHeight - height = 0 := by omega
      rw [ancestor_self _ _ hge, nHeight_mk, hsteps, iterate_zero_apply]

theorem Linked.isAncestor_ancestor (hne : b ≠ null) (h : height ≤ b.nHeight) : IsAncestor (b.ancestor height) b :=
  ⟨(hb.ancestor_spec hne h).1, _, (hb.ancestor_eq_iterate hne h).symm⟩

theorem IsAncestor.of_le (h : IsAncestor a b) (hlow : a.nHeight ≤ height)
    (hhigh : height ≤ b.nHeight) : IsAncestor a (b.ancestor height) := by
  obtain ⟨hne, hheight, hlinked⟩ := hb.ancestor_spec h.ne_null hhigh
  have heq := h.eq_ancestor hb
  rw [← ancestor_ancestor b hlow] at heq
  have hle : a.nHeight ≤ (b.ancestor height).nHeight := by rwa [hheight]
  have hanc := hlinked.isAncestor_ancestor hne hle
  rwa [← heq] at hanc

end

theorem IsAncestor.trans (h : IsAncestor a b) (h' : IsAncestor b c) : IsAncestor a c := by
  obtain ⟨hne, n, hn⟩ := h
  obtain ⟨-, m, hm⟩ := h'
  exact ⟨hne, n + m, by rw [iterate_add_apply, hm, hn]⟩

/-! ## The last common ancestor -/

/-- From one height the loop ends at the common ancestor. -/
theorem walkTogether_spec (ha : Linked a) (hb : Linked b) (hheight : a.nHeight = b.nHeight) (hda : IsAncestor d a)
    (hdb : IsAncestor d b) : ∃ c, walkTogether a b = (c, c) ∧ IsAncestor c a ∧ IsAncestor c b ∧
      ∀ x, IsAncestor x a → IsAncestor x b → IsAncestor x c := by
  induction a generalizing b with
  | null => exact absurd hda not_isAncestor_null
  | mk e p s ihp _ =>
    cases b with
    | null => exact absurd hdb not_isAncestor_null
    | mk e' p' s' =>
      by_cases hsame : mk e p s = mk e' p' s'
      · refine ⟨mk e p s, ?_, IsAncestor.refl (by simp), hsame ▸ IsAncestor.refl (by simp), fun x hx _ => hx⟩
        rw [walkTogether, if_neg (fun h => h.1 hsame), ← hsame]
      · -- A common ancestor is neither of the two blocks, so it is one of both parents.
        have hboth (x : CBlockIndex) (hxa : IsAncestor x (mk e p s)) (hxb : IsAncestor x (mk e' p' s')) :
            IsAncestor x p ∧ IsAncestor x p' := by
          rcases isAncestor_mk.mp hxa with rfl | hxp
          · have heq := hxb.eq_ancestor hb
            rw [ancestor_self _ _ (le_of_eq hheight.symm)] at heq
            exact absurd heq hsame
          · refine ⟨hxp, (isAncestor_mk.mp hxb).resolve_left ?_⟩
            rintro rfl
            have hle := hxp.height_le ha.parent
            have hup := ha.height_mk hxp.ne_null
            simp only [nHeight_mk] at hle hheight
            omega
        obtain ⟨hdp, hdp'⟩ := hboth d hda hdb
        have hup := ha.height_mk hdp.ne_null
        have hup' := hb.height_mk hdp'.ne_null
        simp only [nHeight_mk] at hheight
        obtain ⟨c, hwalk, hcp, hcp', hmax⟩ := ihp ha.parent hb.parent (by omega) hdp hdp'
        refine ⟨c, ?_, isAncestor_mk.mpr (Or.inr hcp), isAncestor_mk.mpr (Or.inr hcp'), ?_⟩
        · rw [walkTogether, if_pos ⟨hsame, rfl⟩]
          exact hwalk
        · intro x hxa hxb
          obtain ⟨hxp, hxp'⟩ := hboth x hxa hxb
          exact hmax x hxp hxp'

theorem lastCommonAncestor_spec (ha : Linked a) (hb : Linked b) (hda : IsAncestor d a) (hdb : IsAncestor d b) :
    ∃ c, lastCommonAncestor a b = .ok c ∧ IsAncestor c a ∧ IsAncestor c b ∧ ∀ x, IsAncestor x a → IsAncestor x b →
      IsAncestor x c := by
  unfold lastCommonAncestor
  rcases Nat.lt_trichotomy a.nHeight b.nHeight with hlt | heq | hgt
  · obtain ⟨-, hheight, hlinked⟩ := hb.ancestor_spec hdb.ne_null (Nat.le_of_lt hlt)
    have hdb' := hdb.of_le hb (hda.height_le ha) (Nat.le_of_lt hlt)
    obtain ⟨c, hwalk, hca, hcb, hmax⟩ := walkTogether_spec ha hlinked hheight.symm hda hdb'
    refine ⟨c, ?_, hca, hcb.trans (hb.isAncestor_ancestor hdb.ne_null (Nat.le_of_lt hlt)), ?_⟩
    · rw [if_neg (by omega), if_pos hlt, hb.getAncestor_eq hdb.ne_null (Nat.le_of_lt hlt)]
      simp [hwalk, pure, Except.pure]
    · intro x hxa hxb
      exact hmax x hxa (hxb.of_le hb (hxa.height_le ha) (Nat.le_of_lt hlt))
  · obtain ⟨c, hwalk, hca, hcb, hmax⟩ := walkTogether_spec ha hb heq hda hdb
    refine ⟨c, ?_, hca, hcb, hmax⟩
    rw [if_neg (by omega), if_neg (by omega)]
    simp [hwalk, pure, Except.pure]
  · obtain ⟨-, hheight, hlinked⟩ := ha.ancestor_spec hda.ne_null (Nat.le_of_lt hgt)
    have hda' := hda.of_le ha (hdb.height_le hb) (Nat.le_of_lt hgt)
    obtain ⟨c, hwalk, hca, hcb, hmax⟩ := walkTogether_spec hlinked hb hheight hda' hdb
    refine ⟨c, ?_, hca.trans (ha.isAncestor_ancestor hda.ne_null (Nat.le_of_lt hgt)), hcb, ?_⟩
    · rw [if_pos hgt, ha.getAncestor_eq hda.ne_null (Nat.le_of_lt hgt)]
      simp [hwalk, pure, Except.pure]
    · intro x hxa hxb
      exact hmax x (hxa.of_le ha (hxb.height_le hb) (Nat.le_of_lt hgt)) hxb

/-- The skip list answers as the walk, and two blocks meet at their highest common ancestor. -/
theorem getAncestor_and_lastCommonAncestor :
    (∀ (b : CBlockIndex) (height : Int), Linked b → b ≠ null → b.getAncestor height =
      .ok (if height < 0 ∨ height > b.nHeight then null else pprev^[b.nHeight - height.toNat] b)) ∧
    ∀ a b genesis : CBlockIndex, Linked a → Linked b → IsAncestor genesis a → IsAncestor genesis b →
      ∃ c, lastCommonAncestor a b = .ok c ∧ IsAncestor c a ∧ IsAncestor c b ∧
        ∀ x, IsAncestor x a → IsAncestor x b → x.nHeight ≤ c.nHeight ∧ IsAncestor x c := by
  constructor
  · intro b height hb hne
    by_cases hout : height < 0 ∨ height > b.nHeight
    · rw [if_pos hout, getAncestor, if_pos hout.symm]
    · rw [if_neg hout]
      obtain ⟨n, rfl⟩ : ∃ n : Nat, height = n := ⟨height.toNat, by omega⟩
      rw [hb.getAncestor_eq hne (by omega), hb.ancestor_eq_iterate hne (by omega), Int.toNat_natCast]
  · intro a b genesis ha hb hga hgb
    obtain ⟨c, hc, hca, hcb, hmax⟩ := lastCommonAncestor_spec ha hb hga hgb
    have hlinked : Linked c := by
      have hle := hca.height_le ha
      have heq := hca.eq_ancestor ha
      rw [heq]
      exact (ha.ancestor_spec hca.ne_null hle).2.2
    refine ⟨c, hc, hca, hcb, fun x hxa hxb => ?_⟩
    have hxc := hmax x hxa hxb
    exact ⟨hxc.height_le hlinked, hxc⟩

end FullNode.CBlockIndex
