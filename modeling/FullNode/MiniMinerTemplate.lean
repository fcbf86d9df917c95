import FullNode.Lib.Sorting
import FullNode.MiniMiner

/-! # The mock template -/

namespace FullNode.MiniMiner

open Worklist Ancestry List Finset
open TxRequest (memoryBytes)
open Relation

variable {pool m : MockEntryMap} {k p a d : Uint256} {e : MiniMinerMempoolEntry}

/-! ## Walks -/

theorem mem_iff_lookup {κ v : Type} [DecidableEq κ] {m : AssocMap κ v} {k : κ} : k ∈ m ↔ ∃ x, m.lookup k = some x := by
  rw [← AList.lookup_isSome, Option.isSome_iff_exists]

theorem mem_parentsIn : p ∈ parentsIn m k ↔ ∃ e, m.lookup k = some e ∧ p ∈ e.tx.parentHashes ∧ p ∈ m := by
  unfold parentsIn
  cases hk : m.lookup k with
  | none => simp
  | some e => simp

theorem mem_childrenIn : a ∈ childrenIn m p ↔ p ∈ parentsIn m a := by
  unfold childrenIn
  rw [List.mem_filter, decide_eq_true_iff, AList.mem_keys.symm]
  constructor
  · exact And.right
  · intro h
    obtain ⟨e, he, -, -⟩ := mem_parentsIn.mp h
    exact ⟨mem_iff_lookup.mpr ⟨e, he⟩, h⟩

variable {stage anc : List Uint256} {m' : MockEntryMap} {x : Uint256 → Int × Int} {s : MiniMiner}

theorem closure_spec {next : Uint256 → List Uint256} (hnext : ∀ x ∈ m, ∀ y ∈ next x, y ∈ m)
    (hstage : ∀ x ∈ stage, x ∈ m) (hnodup : stage.Nodup) :
    ∃ out, closure m next stage = .ok out ∧ out.Nodup ∧ ∀ y, y ∈ out ↔ ∃ x ∈ stage, Leads next x y := by
  unfold closure
  cases hwalk : walk memoryBytes next (fun _ _ _ _ => (.ok () : Checked Unit)) .endless m.keys.length () stage [] with
  | error e =>
    obtain ⟨_, x, _, _, _, hvisit⟩ := walk_error (U := m.keys) hwalk (fun x hx y hy => hnext x hx y hy)
      (fun x hx => ⟨hstage x hx, not_mem_nil⟩) (fun x hx => absurd hx not_mem_nil) nodup_nil hnodup
      (by
        rw [length_nil, Nat.zero_add]
        exact toFinset_card_le _)
    cases hvisit
  | ok out =>
    refine ⟨out, rfl, walk_nodup hwalk nodup_nil, fun y => ?_⟩
    rw [mem_walk hwalk (fun x hx => absurd hx not_mem_nil)]
    simp

/-! ## The graph -/

def Parent (pool : MockEntryMap) (k p : Uint256) : Prop := p ∈ parentsIn pool k

def own (pool : MockEntryMap) (k : Uint256) : Int × Int :=
  (pool.lookup k).elim 0 fun e => (e.vsize_individual, e.fee_individual)

def ExactTotals (pool : MockEntryMap) : Prop :=
  ∀ k e, pool.lookup k = some e →
    (e.vsize_with_ancestors, e.fee_with_ancestors) = ∑ a ∈ ancestors (Parent pool) pool.keys.toFinset k, own pool a

theorem own_of_lookup (h : pool.lookup k = some e) : own pool k = (e.vsize_individual, e.fee_individual) := by
  rw [own, h]
  rfl

def Copied (pool m : MockEntryMap) : Prop :=
  ∀ k e, m.lookup k = some e → ∃ e0, pool.lookup k = some e0 ∧ e.tx = e0.tx ∧
    e.vsize_individual = e0.vsize_individual ∧ e.fee_individual = e0.fee_individual

theorem Copied.mem (h : Copied pool m) (hk : k ∈ m) : k ∈ pool := by
  obtain ⟨e, he⟩ := mem_iff_lookup.mp hk
  obtain ⟨e0, he0, -⟩ := h k e he
  exact mem_iff_lookup.mpr ⟨e0, he0⟩

theorem Copied.mem_parentsIn (h : Copied pool m) : p ∈ parentsIn m k ↔ k ∈ m ∧ p ∈ m ∧ Parent pool k p := by
  unfold Parent
  rw [MiniMiner.mem_parentsIn, MiniMiner.mem_parentsIn]
  constructor
  · rintro ⟨e, he, hp, hpm⟩
    obtain ⟨e0, he0, htx, -⟩ := h k e he
    exact ⟨mem_iff_lookup.mpr ⟨e, he⟩, hpm, e0, he0, htx ▸ hp, h.mem hpm⟩
  · rintro ⟨hk, hpm, e0, he0, hp, -⟩
    obtain ⟨e, he⟩ := mem_iff_lookup.mp hk
    obtain ⟨_, he1, htx, -⟩ := h k e he
    rw [he0] at he1
    cases he1
    exact ⟨e, he, htx ▸ hp, hpm⟩

def Convex (pool m : MockEntryMap) : Prop :=
  ∀ k n a, k ∈ m → a ∈ m → ReflTransGen (Parent pool) k n → ReflTransGen (Parent pool) n a → n ∈ m

theorem leads_parentsIn (hcopied : Copied pool m) (hconvex : Convex pool m) (hk : k ∈ m) :
    Leads (parentsIn m) k a ↔ a ∈ m ∧ ReflTransGen (Parent pool) k a := by
  constructor
  · intro h
    induction h with
    | refl => exact ⟨hk, .refl⟩
    | tail _ hstep ih =>
      obtain ⟨-, hmem, hparent⟩ := hcopied.mem_parentsIn.mp hstep
      exact ⟨hmem, ih.2.tail hparent⟩
  · rintro ⟨ha, hreach⟩
    induction hreach using ReflTransGen.head_induction_on with
    | refl => exact .refl
    | head hstep hrest ih =>
      have hn := hconvex _ _ _ hk ha (.single hstep) hrest
      exact .head (hcopied.mem_parentsIn.mpr ⟨hk, hn, hstep⟩) (ih hn)

theorem closure_parentsIn (hcopied : Copied pool m) (hconvex : Convex pool m)
    (hstage : ∀ x ∈ stage, x ∈ m) (hnodup : stage.Nodup) : ∃ out, closure m (parentsIn m) stage = .ok out ∧ out.Nodup ∧
      ∀ y, y ∈ out ↔ y ∈ m ∧ ∃ x ∈ stage, ReflTransGen (Parent pool) x y := by
  obtain ⟨out, hout, hnd, hmem⟩ := closure_spec (fun x _ y hy => (hcopied.mem_parentsIn.mp hy).2.1) hstage hnodup
  refine ⟨out, hout, hnd, fun y => ?_⟩
  rw [hmem]
  constructor
  · rintro ⟨x, hx, hleads⟩
    obtain ⟨hy, hreach⟩ := (leads_parentsIn hcopied hconvex (hstage x hx)).mp hleads
    exact ⟨hy, x, hx, hreach⟩
  · rintro ⟨hy, x, hx, hreach⟩
    exact ⟨x, hx, (leads_parentsIn hcopied hconvex (hstage x hx)).mpr ⟨hy, hreach⟩⟩

/-! ## Taking out what is mined -/

def less (e : MiniMinerMempoolEntry) (x : Int × Int) : MiniMinerMempoolEntry :=
  e.updateAncestorState (-x.1) (-x.2)

theorem less_zero (e : MiniMinerMempoolEntry) : less e 0 = e := by
  simp [less, MiniMinerMempoolEntry.updateAncestorState]

theorem less_less (e : MiniMinerMempoolEntry) (x y : Int × Int) : less (less e x) y = less e (x + y) := by
  simp only [less, MiniMinerMempoolEntry.updateAncestorState, Prod.fst_add, Prod.snd_add]
  congr 1
  · ring
  · ring

/-- `m'` is `m` with some totals less. -/
def Deducted (m m' : MockEntryMap) (x : Uint256 → Int × Int) : Prop :=
  ∀ k, m'.lookup k = (m.lookup k).map (less · (x k))

theorem Deducted.mem (h : Deducted m m' x) : k ∈ m' ↔ k ∈ m := by
  rw [← AList.lookup_isSome, ← AList.lookup_isSome, h k, Option.isSome_map]

theorem deduct_spec (own : MiniMinerMempoolEntry) {descendants : List Uint256} (hmem : ∀ d ∈ descendants, d ∈ m)
    (hnodup : descendants.Nodup) : ∃ m', descendants.foldlM (deduct own) m = .ok m' ∧
      Deducted m m' fun k => if k ∈ descendants then (own.vsize_individual, own.fee_individual) else 0 := by
  induction descendants generalizing m with
  | nil => exact ⟨m, rfl, fun k => by simp [less_zero]⟩
  | cons d descendants ih =>
    rw [nodup_cons] at hnodup
    obtain ⟨e, he⟩ := mem_iff_lookup.mp (hmem d List.mem_cons_self)
    have hkeeps : ∀ d' ∈ descendants, d' ∈ m.insert d (less e (own.vsize_individual, own.fee_individual)) :=
      fun d' hd' => (AList.mem_insert _).mpr (.inr (hmem d' (List.mem_cons_of_mem _ hd')))
    obtain ⟨m', hm', hdeducted⟩ := ih hkeeps hnodup.2
    refine ⟨m', ?_, fun k => ?_⟩
    · rw [foldlM_cons, deduct, he]
      exact hm'
    · rw [hdeducted k]
      by_cases hk : k = d
      · subst hk
        simp [he, hnodup.1, less_zero]
      · rw [AList.lookup_insert_ne hk]
        simp [hk]

def Cached (pool : MockEntryMap) (s : MiniMiner) : Prop :=
  ∀ k ∈ s.m_entries_by_txid, ∃ l, s.m_descendant_set_by_txid.lookup k = some l ∧ l.Nodup ∧
    ∀ d, d ∈ l ↔ d ∈ s.m_entries_by_txid ∧ ReflTransGen (Parent pool) d k

open Classical in
/-- What mining `anc` takes out of the totals of `k`. -/
noncomputable def minedAbove (pool : MockEntryMap) (anc : List Uint256) (k : Uint256) : Int × Int :=
  (anc.map fun a => if ReflTransGen (Parent pool) k a then own pool a else 0).sum

theorem Copied.own_eq (h : Copied pool m) (he : m.lookup k = some e) :
    own pool k = (e.vsize_individual, e.fee_individual) := by
  obtain ⟨_, he0, -, hsize, hfee⟩ := h k e he
  rw [own_of_lookup he0, hsize, hfee]

theorem Copied.deducted (h : Copied pool m) (hd : Deducted m m' x) : Copied pool m' := by
  intro k e' he'
  rw [hd k] at he'
  obtain ⟨e, he, rfl⟩ := Option.map_eq_some_iff.mp he'
  exact h k e he

theorem mineEntries_spec (hcopied : Copied pool s.m_entries_by_txid)
    (hcached : Cached pool s) (hanc : ∀ a ∈ anc, a ∈ s.m_entries_by_txid) :
    ∃ m', anc.foldlM mineEntry s = .ok { s with m_in_block := anc.reverse ++ s.m_in_block, m_entries_by_txid := m' } ∧
      Deducted s.m_entries_by_txid m' (minedAbove pool anc) := by
  induction anc generalizing s with
  | nil => exact ⟨s.m_entries_by_txid, rfl, fun k => by simp [minedAbove, less_zero]⟩
  | cons a anc ih =>
    obtain ⟨e, he⟩ := mem_iff_lookup.mp (hanc a List.mem_cons_self)
    obtain ⟨l, hl, hnodup, hmem⟩ := hcached a (hanc a List.mem_cons_self)
    obtain ⟨m1, hm1, hd1⟩ := deduct_spec e (fun d hd => ((hmem d).mp hd).1) hnodup
    have hstep : mineEntry s a = .ok { s with m_in_block := a :: s.m_in_block, m_entries_by_txid := m1 } := by
      simp only [mineEntry, he, hl, hm1]
      rfl
    obtain ⟨m', hm', hd'⟩ := ih (s := { s with m_in_block := a :: s.m_in_block, m_entries_by_txid := m1 })
      (hcopied.deducted hd1)
      (fun k hk => by
        obtain ⟨l, hl, hnodup, hmem⟩ := hcached k (hd1.mem.mp hk)
        exact ⟨l, hl, hnodup, fun d => by rw [hmem d, hd1.mem]⟩)
      (fun b hb => hd1.mem.mpr (hanc b (List.mem_cons_of_mem _ hb)))
    refine ⟨m', ?_, fun k => ?_⟩
    · rw [foldlM_cons, hstep, reverse_cons, append_assoc]
      exact hm'
    · rw [hd' k, hd1 k]
      cases hk : s.m_entries_by_txid.lookup k with
      | none => rfl
      | some ek =>
        have hiff : k ∈ l ↔ ReflTransGen (Parent pool) k a := by
          rw [hmem k]
          exact and_iff_right (mem_iff_lookup.mpr ⟨ek, hk⟩)
        have hsum : minedAbove pool (a :: anc) k =
            (if k ∈ l then (e.vsize_individual, e.fee_individual) else 0) + minedAbove pool anc k := by
          unfold minedAbove
          rw [List.map_cons, List.sum_cons, hcopied.own_eq he]
          congr 1
          by_cases hk : ReflTransGen (Parent pool) k a
          · rw [if_pos hk, if_pos (hiff.mpr hk)]
          · rw [if_neg hk, if_neg (mt hiff.mp hk)]
        simp only [Option.map_some, less_less, hsum]

theorem eraseEntries_spec (anc : List Uint256) (s : MiniMiner) (hnodup : s.m_entries.Nodup) :
    ∃ m caches, anc.foldl eraseEntry s =
      { s with m_entries_by_txid := m, m_descendant_set_by_txid := caches, m_entries := s.m_entries.filter (· ∉ anc) } ∧
      (∀ k, m.lookup k = if k ∈ anc then none else s.m_entries_by_txid.lookup k) ∧
      ∀ k, caches.lookup k = if k ∈ anc then none else s.m_descendant_set_by_txid.lookup k := by
  induction anc generalizing s with
  | nil => exact ⟨s.m_entries_by_txid, s.m_descendant_set_by_txid, by simp, by simp, by simp⟩
  | cons a anc ih =>
    obtain ⟨m, caches, heq, hm, hcaches⟩ := ih (eraseEntry s a) (hnodup.erase a)
    refine ⟨m, caches, ?_, fun k => ?_, fun k => ?_⟩
    · rw [foldl_cons, heq]
      simp only [eraseEntry]
      congr 1
      rw [hnodup.erase_eq_filter, List.filter_filter]
      congr 1
      funext k
      simp only [List.mem_cons, not_or, Bool.decide_and]
      grind
    · rw [hm k]
      by_cases hk : k = a
      · subst hk
        simp [eraseEntry]
      · simp [eraseEntry, hk, AList.lookup_erase_ne hk]
    · rw [hcaches k]
      by_cases hk : k = a
      · subst hk
        simp [eraseEntry]
      · simp [eraseEntry, hk, AList.lookup_erase_ne hk]

/-! ## The template -/

structure Inv (pool : MockEntryMap) (s : MiniMiner) : Prop where
  copied : Copied pool s.m_entries_by_txid
  convex : Convex pool s.m_entries_by_txid
  totals : ∀ k e, s.m_entries_by_txid.lookup k = some e → (e.vsize_with_ancestors, e.fee_with_ancestors) =
    ∑ a ∈ ancestors (Parent pool) s.m_entries_by_txid.keys.toFinset k, own pool a
  cached : Cached pool s
  nodup : s.m_entries.Nodup
  mem : ∀ k, k ∈ s.m_entries ↔ k ∈ s.m_entries_by_txid
  apart : ∀ k ∈ s.m_in_block, k ∉ s.m_entries_by_txid

structure SameRequests (s s' : MiniMiner) : Prop where
  requested : s'.m_requested_outpoints_by_txid = s.m_requested_outpoints_by_txid
  fees : s'.m_bump_fees = s.m_bump_fees
  mem : ∀ k, (k ∈ s'.m_in_block ∨ k ∈ s'.m_entries_by_txid) ↔ (k ∈ s.m_in_block ∨ k ∈ s.m_entries_by_txid)

theorem SameRequests.refl (s : MiniMiner) : SameRequests s s := ⟨rfl, rfl, fun _ => Iff.rfl⟩

theorem SameRequests.trans {s' s'' : MiniMiner} (h : SameRequests s s') (h' : SameRequests s' s'') :
    SameRequests s s'' :=
  ⟨h'.requested.trans h.requested, h'.fees.trans h.fees, fun k => (h'.mem k).trans (h.mem k)⟩

theorem minedAbove_eq (hnodup : anc.Nodup) (k : Uint256) :
    minedAbove pool anc k = ∑ a ∈ ancestors (Parent pool) anc.toFinset k, own pool a := by
  classical
  unfold minedAbove ancestors
  rw [sum_filter, sum_toFinset _ hnodup]

theorem ancestors_split {V S : Finset Uint256} (hsub : S ⊆ V) (k : Uint256) :
    ∑ a ∈ ancestors (Parent pool) V k, own pool a - ∑ a ∈ ancestors (Parent pool) S k, own pool a =
      ∑ a ∈ ancestors (Parent pool) (V \ S) k, own pool a := by
  have hunion : ancestors (Parent pool) V k = ancestors (Parent pool) (V \ S) k ∪ ancestors (Parent pool) S k := by
    ext a
    simp only [mem_ancestors, mem_union, mem_sdiff]
    tauto
  have hdisjoint : Disjoint (ancestors (Parent pool) (V \ S) k) (ancestors (Parent pool) S k) := by
    rw [Finset.disjoint_left]
    intro a ha ha'
    simp only [mem_ancestors, mem_sdiff] at ha ha'
    exact ha.1.2 ha'.1
  rw [hunion, sum_union hdisjoint, add_sub_cancel_right]

section

variable (h : Inv pool s)
include h

theorem deleteAncestorPackage_spec {best : Uint256}
    (hbest : best ∈ s.m_entries_by_txid) (hnodup : anc.Nodup)
    (hanc : ∀ a, a ∈ anc ↔ a ∈ s.m_entries_by_txid ∧ ReflTransGen (Parent pool) best a) :
    ∃ s', deleteAncestorPackage s anc = .ok s' ∧ Inv pool s' ∧ SameRequests s s' ∧
      s'.m_entries_by_txid.keys.length < s.m_entries_by_txid.keys.length := by
  obtain ⟨m1, hmine, hdeducted⟩ := mineEntries_spec h.copied h.cached fun a ha => ((hanc a).mp ha).1
  obtain ⟨m, caches, herase, hm, hcaches⟩ := eraseEntries_spec anc
    { s with m_in_block := anc.reverse ++ s.m_in_block, m_entries_by_txid := m1 } h.nodup
  have hmem : ∀ k, k ∈ m ↔ k ∈ s.m_entries_by_txid ∧ k ∉ anc := by
    intro k
    rw [← hdeducted.mem, ← AList.lookup_isSome, ← AList.lookup_isSome, hm k]
    split
    · next hk => simp [hk]
    · next hk => simp [hk]
  have hkeys : m.keys.toFinset = s.m_entries_by_txid.keys.toFinset \ anc.toFinset := by
    ext k
    simp only [mem_toFinset, mem_sdiff]
    exact hmem k
  have hlookup : ∀ k e, m.lookup k = some e →
      k ∉ anc ∧ ∃ e1, s.m_entries_by_txid.lookup k = some e1 ∧ e = less e1 (minedAbove pool anc k) := by
    intro k e he
    have hk := (hmem k).mp (mem_iff_lookup.mpr ⟨e, he⟩)
    rw [hm k, if_neg hk.2, hdeducted k] at he
    obtain ⟨e1, he1, heq⟩ := Option.map_eq_some_iff.mp he
    exact ⟨hk.2, e1, he1, heq.symm⟩
  -- a descendant of what stays stays, since the ancestors of what is mined are mined
  have hbelow : ∀ d k, k ∈ m → d ∈ s.m_entries_by_txid → ReflTransGen (Parent pool) d k → d ∉ anc := by
    intro d k hk hd hreach hmined
    exact ((hmem k).mp hk).2 ((hanc k).mpr ⟨((hmem k).mp hk).1, ((hanc d).mp hmined).2.trans hreach⟩)
  refine ⟨{ s with
      m_in_block := anc.reverse ++ s.m_in_block
      m_entries_by_txid := m
      m_entries := s.m_entries.filter (· ∉ anc)
      m_descendant_set_by_txid := caches }, by rw [deleteAncestorPackage, hmine, ok_bind, herase]; rfl,
    ⟨?_, ?_, ?_, ?_, h.nodup.filter _, ?_, ?_⟩, ⟨rfl, rfl, fun k => ?_⟩, ?_⟩
  · intro k e he
    obtain ⟨-, e1, he1, rfl⟩ := hlookup k e he
    exact h.copied k e1 he1
  · intro k n a hk ha hkn hna
    have hn := h.convex k n a ((hmem k).mp hk).1 ((hmem a).mp ha).1 hkn hna
    exact (hmem n).mpr ⟨hn, hbelow n a ha hn hna⟩
  · intro k e he
    obtain ⟨-, e1, he1, rfl⟩ := hlookup k e he
    have hsub : anc.toFinset ⊆ s.m_entries_by_txid.keys.toFinset := fun a ha =>
      mem_toFinset.mpr ((hanc a).mp (mem_toFinset.mp ha)).1
    simp only
    rw [hkeys, ← ancestors_split hsub k, ← h.totals k e1 he1, ← minedAbove_eq hnodup]
    rfl
  · intro k hk
    obtain ⟨l, hl, hlnodup, hlmem⟩ := h.cached k ((hmem k).mp hk).1
    refine ⟨l, by rw [hcaches k, if_neg ((hmem k).mp hk).2, hl], hlnodup, fun d => ?_⟩
    rw [hlmem d, hmem d]
    constructor
    · rintro ⟨hd, hreach⟩
      exact ⟨⟨hd, hbelow d k hk hd hreach⟩, hreach⟩
    · rintro ⟨⟨hd, -⟩, hreach⟩
      exact ⟨hd, hreach⟩
  · intro k
    rw [List.mem_filter, h.mem k, hmem k]
    simp
  · intro k hk hmem'
    rcases mem_append.mp hk with hk | hk
    · exact ((hmem k).mp hmem').2 (mem_reverse.mp hk)
    · exact h.apart k hk ((hmem k).mp hmem').1
  · simp only [mem_append, mem_reverse, hmem k, hanc k]
    tauto
  · have hcard : ∀ m : MockEntryMap, m.keys.length = m.keys.toFinset.card := fun m =>
      (toFinset_card_of_nodup m.nodupKeys).symm
    simp only
    rw [hcard, hcard, hkeys]
    apply card_lt_card
    rw [ssubset_iff_of_subset sdiff_subset]
    exact ⟨best, mem_toFinset.mpr hbest, by simp [(hanc best).mpr ⟨hbest, .refl⟩]⟩

/-! ## All rounds -/

theorem Inv.resorted {l : List Uint256} (hl : l.Perm s.m_entries) : Inv pool { s with m_entries := l } :=
  ⟨h.copied, h.convex, h.totals, h.cached, hl.nodup_iff.mpr h.nodup, fun k => hl.mem_iff.trans (h.mem k), h.apart⟩

theorem Inv.unready : Inv pool { s with m_ready_to_calculate := false } :=
  ⟨h.copied, h.convex, h.totals, h.cached, h.nodup, h.mem, h.apart⟩

theorem sortEntries_perm : ((sortEntries s).map Prod.fst).Perm s.m_entries := by
  refine ((perm_insertionSort _ _).map Prod.fst).trans (Perm.of_eq ?_)
  have hkey : ∀ k ∈ s.m_entries, ((s.m_entries_by_txid.lookup k).map fun e => (k, e)).map Prod.fst = some k := by
    intro k hk
    obtain ⟨e, he⟩ := mem_iff_lookup.mp ((h.mem k).mp hk)
    rw [he]
    rfl
  rw [map_filterMap, filterMap_congr hkey, List.filterMap_some]

theorem mem_sortEntries {x : Uint256 × MiniMinerMempoolEntry} :
    x ∈ sortEntries s ↔ s.m_entries_by_txid.lookup x.1 = some x.2 := by
  rw [sortEntries, mem_insertionSort, List.mem_filterMap]
  constructor
  · rintro ⟨_, -, hk⟩
    obtain ⟨_, he, rfl⟩ := Option.map_eq_some_iff.mp hk
    exact he
  · intro hx
    exact ⟨x.1, (h.mem x.1).mpr (mem_iff_lookup.mpr ⟨x.2, hx⟩), by rw [hx]; rfl⟩

end

/-! ## What is left -/

/-- What is above the target feerate, in thousandths. -/
def surplus (rate : Int) (x : Int × Int) : Int := 1000 * x.2 - rate * x.1

/-- By itself and with its ancestors, it reaches the target. -/
def Pays (rate : Int) (e : MiniMinerMempoolEntry) : Prop :=
  0 ≤ surplus rate (e.vsize_individual, e.fee_individual) ∧
    0 ≤ surplus rate (e.vsize_with_ancestors, e.fee_with_ancestors)

def Sized (e : MiniMinerMempoolEntry) : Prop := 0 < e.vsize_individual ∧ 0 < e.vsize_with_ancestors

variable {rate : Int} {e' : MiniMinerMempoolEntry}

theorem cross_lt {x y : FeeFrac} (hx : 0 < x.size) (hy : 0 < y.size) (hpays : 0 ≤ surplus rate (x.size, x.fee))
    (hlacks : surplus rate (y.size, y.fee) < 0) : y.fee * x.size < x.fee * y.size := by
  unfold surplus at hpays hlacks
  dsimp only at hpays hlacks
  have hlow : 1000 * y.fee * x.size < rate * y.size * x.size := Int.mul_lt_mul_of_pos_right (by omega) hx
  have hhigh : rate * x.size * y.size ≤ 1000 * x.fee * y.size := Int.mul_le_mul_of_nonneg_right (by omega) hy.le
  rw [Int.mul_right_comm] at hhigh
  rw [Int.mul_assoc] at hlow
  rw [Int.mul_assoc 1000] at hhigh
  omega

theorem minFeerate_size (h : Sized e) : 0 < (minFeerate e).size := by
  unfold minFeerate
  dsimp only
  split
  · exact h.1
  · exact h.2

theorem minFeerate_pays (h : Sized e) : 0 ≤ surplus rate ((minFeerate e).size, (minFeerate e).fee) ↔ Pays rate e := by
  unfold minFeerate Pays
  dsimp only
  split
  · next hlt =>
    refine (and_iff_left_of_imp fun hself => ?_).symm
    by_contra! hlacks
    have hcross := cross_lt (x := ⟨e.fee_individual, e.vsize_individual⟩)
      (y := ⟨e.fee_with_ancestors, e.vsize_with_ancestors⟩) h.1 h.2 hself hlacks
    dsimp only at hcross
    rw [FeeFrac.lt, if_neg (by dsimp only; omega), decide_eq_true_iff] at hlt
    dsimp only at hlt
    omega
  · next hlt =>
    refine (and_iff_right_of_imp fun hboth => ?_).symm
    by_contra! hlacks
    have hcross := cross_lt (x := ⟨e.fee_with_ancestors, e.vsize_with_ancestors⟩)
      (y := ⟨e.fee_individual, e.vsize_individual⟩) h.2 h.1 hboth hlacks
    dsimp only at hcross
    rw [FeeFrac.lt, if_neg (by dsimp only; omega), decide_eq_true_iff] at hlt
    exact hlt hcross

/-- What reaches the target is sorted before what does not. -/
theorem comparator_pays (h : Sized e) (h' : Sized e') (hpays : Pays rate e) (hlacks : ¬Pays rate e') (k k' : Uint256) :
    ancestorFeerateComparator (k, e) (k', e') = true ∧ ancestorFeerateComparator (k', e') (k, e) = false := by
  rw [← minFeerate_pays h] at hpays
  rw [← minFeerate_pays h', not_le] at hlacks
  have hcross := cross_lt (minFeerate_size h) (minFeerate_size h') hpays hlacks
  have hne : minFeerate e ≠ minFeerate e' := by
    intro heq
    rw [heq] at hcross
    omega
  unfold ancestorFeerateComparator FeeFrac.lt
  dsimp only
  rw [if_pos hne, if_pos hne.symm, if_neg (by omega), if_neg (by omega)]
  simp only [decide_eq_true_iff, decide_eq_false_iff_not]
  omega

/-- Nothing that is left reaches the target. -/
def Stopped (target_feerate : Option Int) (s : MiniMiner) : Prop :=
  ∀ rate ∈ target_feerate, (∀ k e, s.m_entries_by_txid.lookup k = some e → Sized e) →
    ∀ k e, s.m_entries_by_txid.lookup k = some e → ¬Pays rate e

theorem templateRound_spec (target_feerate : Option Int) (h : Inv pool s) :
    (∃ s', templateRound target_feerate s = .ok (.done s') ∧ Inv pool s' ∧ SameRequests s s' ∧
      Stopped target_feerate s') ∨
      ∃ s', templateRound target_feerate s = .ok (.again s') ∧ Inv pool s' ∧ SameRequests s s' ∧
        s'.m_entries_by_txid.keys.length < s.m_entries_by_txid.keys.length := by
  have hperm := sortEntries_perm h
  unfold templateRound
  split
  · next hempty =>
    refine .inl ⟨s, rfl, h, .refl s, fun _ _ _ k e he => ?_⟩
    have hk : k ∈ s.m_entries_by_txid.keys := AList.mem_keys.mpr (mem_iff_lookup.mpr ⟨e, he⟩)
    simp [List.isEmpty_iff.mp hempty] at hk
  · next hne =>
    dsimp only
    split
    · next hsorted =>
      obtain ⟨k, hk⟩ := exists_mem_of_ne_nil _ (mt List.isEmpty_iff.mpr hne)
      rw [hsorted] at hperm
      have hmem := hperm.mem_iff.mpr ((h.mem k).mpr hk)
      simp at hmem
    · next best e rest hsorted =>
      have hbest : best ∈ s.m_entries_by_txid := by
        rw [hsorted] at hperm
        exact (h.mem best).mp (hperm.mem_iff.mp List.mem_cons_self)
      split
      · next hshort =>
        refine .inl ⟨_, rfl, h.resorted hperm, ⟨rfl, rfl, fun _ => Iff.rfl⟩, fun rate hrate hsized k e' he' hpays => ?_⟩
        cases hrate
        have hlookup (x : Uint256 × MiniMinerMempoolEntry) := mem_sortEntries (x := x) h
        have hbestPays : Pays rate e := head_insertionSort (P := fun x => Pays rate x.2)
          (fun a ha b hb hpays hlacks => ?_) hsorted ((mem_insertionSort _).mp ((hlookup (k, e')).mpr he')) hpays
        · have hshort' : e.fee_with_ancestors < getFee rate e.vsize_with_ancestors := by simpa using hshort
          have hreaches := hbestPays.2
          simp only [getFee, surplus] at hshort' hreaches
          omega
        · have hsized' (x) (hx) := hsized x.1 x.2 ((hlookup x).mp ((mem_insertionSort _).mpr hx))
          obtain ⟨hfirst, hnot⟩ := comparator_pays (hsized' a ha) (hsized' b hb) hpays hlacks a.1 b.1
          exact ⟨by simp [hnot], by simp [hfirst]⟩
      · have hstage : ∀ x ∈ [best], x ∈ s.m_entries_by_txid := by simpa using hbest
        obtain ⟨_, hclosure, hnodup, hanc⟩ := closure_parentsIn h.copied h.convex hstage (nodup_singleton best)
        obtain ⟨s', hdelete, hinv, hsame, hlt⟩ := deleteAncestorPackage_spec (h.resorted hperm) hbest hnodup
          (fun a => by simpa using hanc a)
        refine .inr ⟨s', ?_, hinv, ⟨hsame.requested, hsame.fees, hsame.mem⟩, hlt⟩
        rw [hclosure, ok_bind, hdelete]
        rfl

theorem buildMockTemplate_spec (target_feerate : Option Int) (h : Inv pool s) :
    ∃ s', buildMockTemplate target_feerate s = .ok s' ∧ Inv pool s' ∧ SameRequests s s' ∧
      Stopped target_feerate s' := by
  obtain ⟨s', hloop, hinv, hsame, hstopped⟩ := loop_spec (I := fun t => Inv pool t ∧ SameRequests s t)
    (Q := fun t => Inv pool t ∧ SameRequests s t ∧ Stopped target_feerate t) (fun t => t.m_entries_by_txid.keys.length)
    (fun t ⟨ht, hst⟩ => by
      rcases templateRound_spec target_feerate ht with ⟨u, hu, hinv, hsame, hstopped⟩ | ⟨u, hu, hinv, hsame, hlt⟩
      · exact .inl ⟨u, hu, hinv, hst.trans hsame, hstopped⟩
      · exact .inr ⟨u, hu, ⟨hinv, hst.trans hsame⟩, hlt⟩)
    ⟨h, .refl s⟩ (Nat.lt_succ_self _)
  exact ⟨_, by rw [buildMockTemplate, hloop]; rfl, hinv.unready, ⟨hsame.requested, hsame.fees, hsame.mem⟩, hstopped⟩

end FullNode.MiniMiner
