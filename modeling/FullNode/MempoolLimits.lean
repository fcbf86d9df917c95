import FullNode.Replacement
import Mathlib.Algebra.BigOperators.Pi
import Mathlib.Algebra.Order.BigOperators.Group.Finset

/-! # The limits on ancestors -/

namespace FullNode.Mempool.CTxMemPool

open OrderedIndex Worklist Ancestry List Finset
open TxRequest (memoryBytes)
open Relation

variable {pool : CTxMemPool} {limits : Limits} {bytes total total' : Int} {num : Nat} {x : Uint256}
  {staged rest done : List Uint256}

variable {limit : Option Int} {s : WalkStop} {e : CTxMemPoolEntry} {ancestors parents : List Uint256}
  {a : Uint256} {m n : Int}

theorem exceedsCount_mono (hle : m ≤ n) (h : exceedsCount m limit = true) : exceedsCount n limit = true := by
  cases limit with
  | none => cases h
  | some l =>
    simp only [exceedsCount, Option.any_some, decide_eq_true_eq] at h ⊢
    omega

theorem exceedsSize_mono (hle : m ≤ n) (h : exceedsSize m limit = true) : exceedsSize n limit = true := by
  cases limit with
  | none => cases h
  | some l =>
    simp only [exceedsSize, Option.any_some, decide_eq_true_eq] at h ⊢
    omega

/-! ## One round -/

theorem length_le_stageNew (key : Uint256 → List Nat) (done ys stage : List Uint256) :
    stage.length ≤ (stageNew key done ys stage).length := by
  unfold stageNew
  induction ys generalizing stage with
  | nil => exact le_rfl
  | cons y ys ih =>
    rw [foldl_cons]
    refine le_trans ?_ (ih _)
    split
    · exact le_rfl
    · by_cases hy : y ∈ stage
      · unfold insertNew
        rw [if_pos hy]
      · rw [insertNew_length hy]
        exact Nat.le_succ _

theorem checkStaged_ok_iff : checkStaged limits num ancestors parents staged = .ok () ↔
    (parents ≠ [] → exceedsCount ((stageNew memoryBytes ancestors parents staged).length + ancestors.length +
      num) limits.ancestorCount = false) := by
  induction parents generalizing staged with
  | nil => simp [checkStaged]
  | cons parent parents ih =>
    have hnext : stageNew memoryBytes ancestors (parent :: parents) staged =
        stageNew memoryBytes ancestors parents
          (if parent ∈ ancestors then staged else insertNew memoryBytes parent staged) := rfl
    have hle := length_le_stageNew memoryBytes ancestors parents
        (if parent ∈ ancestors then staged else insertNew memoryBytes parent staged)
    unfold checkStaged
    rw [hnext]
    generalize (if parent ∈ ancestors then staged else insertNew memoryBytes parent staged) = next at hle
    simp only [ne_eq, reduceCtorEq, not_false_eq_true, forall_const]
    split
    · next hexceeds =>
      have hlast := exceedsCount_mono
          (n := (stageNew memoryBytes ancestors parents next).length + ancestors.length + num) (by omega) hexceeds
      simp [hlast]
    · next hwithin =>
      rw [ih]
      by_cases hparents : parents = []
      · subst hparents
        simpa [stageNew] using hwithin
      · simp [hparents]

theorem checkStaged_error
    (h : checkStaged limits num ancestors parents staged = .error s) : s = .limit .tooManyUnconfirmedAncestors := by
  induction parents generalizing staged with
  | nil => cases h
  | cons parent parents ih =>
    unfold checkStaged at h
    generalize (if parent ∈ ancestors then staged else insertNew memoryBytes parent staged) = next at h
    simp only at h
    split at h
    · cases h
      rfl
    · exact ih h

def descendantsWithin (limits : Limits) (bytes : Int) (num : Nat) (e : CTxMemPoolEntry) : Prop :=
  exceedsSize (e.sizeWithDescendants + bytes) limits.descendantSizeVbytes = false ∧
    exceedsCount (e.countWithDescendants + num) limits.descendantCount = false

theorem visitAncestor_ok_iff (hfind : pool.find x = some e) :
    pool.visitAncestor limits bytes num total x rest done = .ok total' ↔
      total' = total + e.getTxSize ∧ descendantsWithin limits bytes num e ∧
        exceedsSize total' limits.ancestorSizeVbytes = false ∧
        (e.parents ≠ [] → exceedsCount ((stageNew memoryBytes done e.parents rest).length + done.length +
          num) limits.ancestorCount = false) := by
  unfold visitAncestor descendantsWithin
  simp only [hfind]
  by_cases hdescSize : exceedsSize (e.sizeWithDescendants + bytes) limits.descendantSizeVbytes = true
  · simp [hdescSize]
  by_cases hdescCount : exceedsCount (e.countWithDescendants + num) limits.descendantCount = true
  · simp [hdescSize, hdescCount]
  by_cases hsize : exceedsSize (total + e.getTxSize) limits.ancestorSizeVbytes = true
  · rw [if_neg hdescSize, if_neg hdescCount, if_pos hsize]
    constructor
    · nofun
    · rintro ⟨rfl, -, hwithin, -⟩
      rw [hsize] at hwithin
      cases hwithin
  rw [if_neg hdescSize, if_neg hdescCount, if_neg hsize, bind_ok, ← checkStaged_ok_iff]
  simp only [Bool.not_eq_true] at hdescSize hdescCount hsize
  constructor
  · rintro ⟨⟨⟩, hstaged, htotal⟩
    cases htotal
    exact ⟨rfl, ⟨hdescSize, hdescCount⟩, hsize, hstaged⟩
  · rintro ⟨rfl, -, -, hstaged⟩
    exact ⟨(), hstaged, rfl⟩

theorem visitAncestor_error (hfind : pool.find x = some e)
    (h : pool.visitAncestor limits bytes num total x rest done = .error s) : ∃ l, s = .limit l := by
  unfold visitAncestor at h
  simp only [hfind] at h
  split at h
  · cases h
    exact ⟨_, rfl⟩
  · split at h
    · cases h
      exact ⟨_, rfl⟩
    · split at h
      · cases h
        exact ⟨_, rfl⟩
      · cases hstaged : checkStaged limits num done e.parents rest with
        | error s' =>
          rw [hstaged] at h
          cases h
          exact ⟨_, checkStaged_error hstaged⟩
        | ok _ =>
          rw [hstaged] at h
          cases h

/-! ## What the limits are about -/

def sizeOf (pool : CTxMemPool) (k : Uint256) : Int := (pool.find k).elim 0 CTxMemPoolEntry.getTxSize

def Sized (pool : CTxMemPool) : Prop := ∀ {k e}, pool.find k = some e → 0 ≤ e.getTxSize

open Classical in
noncomputable def ancestorSet (pool : CTxMemPool) (staged : List Uint256) : Finset Uint256 :=
  pool.keys.filter fun a => ∃ p ∈ staged, ReflTransGen pool.Spends p a

structure DescendantsWithin (pool : CTxMemPool) (limits : Limits) (bytes : Int) (num : Nat)
    (staged : List Uint256) : Prop where
  count : ∀ a ∈ pool.ancestorSet staged,
      exceedsCount ((descendants pool.Spends pool.keys a).card + num) limits.descendantCount = false
  size : ∀ a ∈ pool.ancestorSet staged,
    exceedsSize ((∑ d ∈ descendants pool.Spends pool.keys a, pool.sizeOf d) + bytes) limits.descendantSizeVbytes = false

structure WithinLimits (pool : CTxMemPool) (limits : Limits) (bytes : Int) (num : Nat) (staged : List Uint256) : Prop
    extends DescendantsWithin pool limits bytes num staged where
  ancestorCount : exceedsCount ((pool.ancestorSet staged).card + num) limits.ancestorCount = false
  ancestorSize : exceedsSize (bytes + ∑ a ∈ pool.ancestorSet staged, pool.sizeOf a) limits.ancestorSizeVbytes = false

/-- The count needs a parent, and the size an ancestor. -/
structure PassesChecks (pool : CTxMemPool) (limits : Limits) (bytes : Int) (num : Nat) (staged : List Uint256) : Prop
    extends DescendantsWithin pool limits bytes num staged where
  ancestorCount : (∃ p ∈ staged, pool.parentsOf p ≠ []) →
    exceedsCount ((pool.ancestorSet staged).card + num) limits.ancestorCount = false
  ancestorSize : staged ≠ [] →
      exceedsSize (bytes + ∑ a ∈ pool.ancestorSet staged, pool.sizeOf a) limits.ancestorSizeVbytes = false

theorem sizeOf_eq {k : Uint256} (h : pool.find k = some e) : pool.sizeOf k = e.getTxSize := by
  simp [sizeOf, h]

theorem sizeOf_nonneg (hsized : Sized pool) (k : Uint256) : 0 ≤ pool.sizeOf k := by
  unfold sizeOf
  cases hfind : pool.find k with
  | none => exact le_rfl
  | some e => exact hsized hfind

theorem mem_ancestorSet : a ∈ pool.ancestorSet staged ↔ a ∈ pool.keys ∧ ∃ p ∈ staged, ReflTransGen pool.Spends p a := by
  classical
  unfold ancestorSet
  rw [Finset.mem_filter]

theorem descendantsWithin_iff (h : Exact pool) (hfind : pool.find x = some e) : descendantsWithin limits bytes num e ↔
    exceedsSize ((∑ d ∈ descendants pool.Spends pool.keys x, pool.sizeOf d) + bytes) limits.descendantSizeVbytes =
      false ∧
      exceedsCount ((descendants pool.Spends pool.keys x).card + num) limits.descendantCount = false := by
  have hsum := h.summed.descendants hfind
  have hbelow : ∀ d ∈ descendants pool.Spends pool.keys x,
      pool.ownBelow d = (1, pool.sizeOf d, (pool.ownBelow d).2.2) := by
    intro d hd
    obtain ⟨_, hfind'⟩ := mem_keys.mp (mem_descendants.mp hd).1
    simp [ownBelow, sizeOf, hfind', CTxMemPoolEntry.ownBelow]
  have hcount : e.countWithDescendants = (descendants pool.Spends pool.keys x).card := by
    have hfst := congrArg Prod.fst hsum
    rw [Prod.fst_sum, sum_congr rfl fun d hd => congrArg Prod.fst (hbelow d hd)] at hfst
    simpa [CTxMemPoolEntry.withDescendants] using hfst
  have hsize : e.sizeWithDescendants = ∑ d ∈ descendants pool.Spends pool.keys x, pool.sizeOf d := by
    have hsnd := congrArg (fun t => t.2.1) hsum
    simp only [Prod.snd_sum, Prod.fst_sum] at hsnd
    rw [sum_congr rfl fun d hd => congrArg (fun t => t.2.1) (hbelow d hd)] at hsnd
    exact hsnd
  unfold descendantsWithin
  rw [hcount, hsize]

/-! ## Any order -/

/-- What is done and staged, among ancestors of the start. -/
structure Frontier (pool : CTxMemPool) (start stage done : List Uint256) : Prop where
  stage_nodup : stage.Nodup
  done_nodup : done.Nodup
  apart : ∀ a ∈ stage, a ∉ done
  covered : Covered pool.parentsOf done stage
  reach : ∀ a, (a ∈ done ∨ ∃ z ∈ stage, Leads pool.parentsOf z a) ↔ ∃ p ∈ start, Leads pool.parentsOf p a

variable {start stage : List Uint256}

theorem Frontier.begin (hnodup : start.Nodup) : Frontier pool start start [] := by
  refine ⟨hnodup, nodup_nil, ?_, ?_, ?_⟩
  · intro a _ ha
    cases ha
  · intro a ha
    cases ha
  · intro a
    simp

variable (h : Frontier pool start stage done)
include h

theorem Frontier.step (hpick : stage.Perm (x :: rest)) :
    Frontier pool start (stageNew memoryBytes (insertNew memoryBytes x done) (pool.parentsOf x) rest)
      (insertNew memoryBytes x done) := by
  have hnodup : (x :: rest).Nodup := hpick.nodup_iff.mp h.stage_nodup
  have hcovered : Covered pool.parentsOf done (x :: rest) := h.covered.perm hpick
  refine ⟨stageNew_nodup (nodup_cons.mp hnodup).2, insertNew_nodup h.done_nodup, ?_, hcovered.step, ?_⟩
  · intro a ha hdone
    rcases mem_stageNew.mp ha with hrest | ⟨-, hout⟩
    · rcases mem_insertNew.mp hdone with rfl | hdone
      · exact (nodup_cons.mp hnodup).1 hrest
      · exact h.apart a (hpick.mem_iff.mpr (mem_cons_of_mem _ hrest)) hdone
    · exact hout hdone
  · intro a
    rw [hcovered.reaches_step, ← h.reach]
    simp only [hpick.mem_iff]

theorem Frontier.mem_ancestorSet (hlinked : Linked pool.Spends pool) (hstart : ∀ p ∈ start, p ∈ pool.keys)
    : a ∈ pool.ancestorSet start ↔ a ∈ done ∨ ∃ z ∈ stage, Leads pool.parentsOf z a := by
  rw [h.reach, CTxMemPool.mem_ancestorSet]
  simp only [hlinked.leads_parentsOf]
  constructor
  · exact fun ha => ha.2
  · rintro ⟨p, hp, hreach⟩
    exact ⟨hlinked.reaches_mem hreach (hstart p hp), p, hp, hreach⟩

theorem Frontier.length_le (hlinked : Linked pool.Spends pool) (hstart : ∀ p ∈ start, p ∈ pool.keys) :
    stage.length + done.length ≤ (pool.ancestorSet start).card := by
  have hsub : (stage ++ done).toFinset ⊆ pool.ancestorSet start := by
    intro a ha
    rw [mem_toFinset, mem_append] at ha
    rw [h.mem_ancestorSet hlinked hstart]
    rcases ha with ha | ha
    · exact .inr ⟨a, ha, .refl⟩
    · exact .inl ha
  have hnodup : (stage ++ done).Nodup :=
      nodup_append.mpr ⟨h.stage_nodup, h.done_nodup, fun a ha b hb hab => h.apart a ha (hab ▸ hb)⟩
  have hcard := card_le_card hsub
  rwa [toFinset_card_of_nodup hnodup, length_append] at hcard

omit h

structure Searching (pool : CTxMemPool) (limits : Limits) (bytes : Int) (num : Nat) (start : List Uint256) (total : Int)
    (stage done : List Uint256) : Prop extends Frontier pool start stage done where
  total_eq : total = bytes + ∑ a ∈ done.toFinset, pool.sizeOf a
  descendants : ∀ a ∈ done, ∀ e, pool.find a = some e → descendantsWithin limits bytes num e
  size : done ≠ [] → exceedsSize total limits.ancestorSizeVbytes = false
  count : (∃ a ∈ done, pool.parentsOf a ≠ []) →
      exceedsCount (stage.length + done.length + num) limits.ancestorCount = false

abbrev AncestorWalk (pool : CTxMemPool) (limits : Limits) (bytes : Int) (num : Nat) (staged : List Uint256)
    (r : Except WalkStop (List Uint256)) : Prop :=
  Walks memoryBytes pool.parentsOf (pool.visitAncestor limits bytes num) bytes staged [] r

theorem Searching.begin (hnodup : start.Nodup) : Searching pool limits bytes num start bytes start [] := by
  refine ⟨.begin hnodup, ?_, ?_, ?_, ?_⟩
  · simp
  · intro a ha
    cases ha
  · exact fun h => absurd rfl h
  · rintro ⟨a, ha, -⟩
    cases ha

theorem Searching.step (hlinked : Linked pool.Spends pool) (hstart : ∀ p ∈ start, p ∈ pool.keys)
    (hpick : stage.Perm (x :: rest))
    (hvisit : pool.visitAncestor limits bytes num total x rest (insertNew memoryBytes x done) = .ok total')
    (h : Searching pool limits bytes num start total stage done) :
    Searching pool limits bytes num start total'
      (stageNew memoryBytes (insertNew memoryBytes x done) (pool.parentsOf x) rest)
      (insertNew memoryBytes x done) := by
  have hx : x ∈ stage := hpick.mem_iff.mpr mem_cons_self
  have hnot : x ∉ done := h.apart x hx
  obtain ⟨hkey, -⟩ := mem_ancestorSet.mp ((h.mem_ancestorSet hlinked hstart).mpr (.inr ⟨x, hx, .refl⟩))
  obtain ⟨_, hfind⟩ := mem_keys.mp hkey
  obtain ⟨rfl, hdesc, hsize, hcount⟩ := (visitAncestor_ok_iff hfind).mp hvisit
  have hlength : (insertNew memoryBytes x done).length = done.length + 1 := insertNew_length hnot
  refine ⟨h.toFrontier.step hpick, ?_, ?_, fun _ => hsize, ?_⟩
  · have hset : (insertNew memoryBytes x done).toFinset = insert x done.toFinset := by
      ext a
      simp [mem_insertNew]
    rw [hset, sum_insert (by simpa using hnot), h.total_eq, sizeOf_eq hfind]
    omega
  · intro a ha e' hfind'
    rcases mem_insertNew.mp ha with rfl | ha
    · rw [hfind] at hfind'
      cases hfind'
      exact hdesc
    · exact h.descendants a ha e' hfind'
  · rintro ⟨a, ha, hparents⟩
    by_cases hx : pool.parentsOf x = []
    · -- nothing was staged, and what was counted before has one more member done
      have hold : a ∈ done := by
        rcases mem_insertNew.mp ha with rfl | ha
        · exact absurd hx hparents
        · exact ha
      have hcount := h.count ⟨a, hold, hparents⟩
      rw [hpick.length_eq, length_cons] at hcount
      rw [hx, hlength]
      have hstage : stageNew memoryBytes (insertNew memoryBytes x done) [] rest = rest := rfl
      rw [hstage, ← hcount]
      congr 1
      push_cast
      omega
    · rw [parentsOf_eq hfind] at hx ⊢
      exact hcount hx

theorem Searching.finish (h : Searching pool limits bytes num start total [] done) (hexact : Exact pool)
    (hstart : ∀ p ∈ start, p ∈ pool.keys) : done.toFinset = pool.ancestorSet start ∧
      PassesChecks pool limits bytes num start := by
  have hset : done.toFinset = pool.ancestorSet start := by
    ext a
    rw [mem_toFinset, h.mem_ancestorSet hexact.linked hstart]
    simp
  have hmem : ∀ a ∈ pool.ancestorSet start, ∃ e, pool.find a = some e ∧ descendantsWithin limits bytes num e := by
    intro a ha
    obtain ⟨e, hfind⟩ := mem_keys.mp (mem_ancestorSet.mp ha).1
    rw [← hset, mem_toFinset] at ha
    exact ⟨e, hfind, h.descendants a ha e hfind⟩
  have hdone : ∀ p ∈ start, p ∈ done := by
    intro p hp
    rw [← mem_toFinset, hset]
    exact mem_ancestorSet.mpr ⟨hstart p hp, p, hp, .refl⟩
  refine ⟨hset, ⟨?_, ?_⟩, ?_, ?_⟩
  · intro a ha
    obtain ⟨e, hfind, hdesc⟩ := hmem a ha
    exact ((descendantsWithin_iff hexact hfind).mp hdesc).2
  · intro a ha
    obtain ⟨e, hfind, hdesc⟩ := hmem a ha
    exact ((descendantsWithin_iff hexact hfind).mp hdesc).1
  · rintro ⟨p, hp, hparents⟩
    have hcount := h.count ⟨p, hdone p hp, hparents⟩
    rw [← hset, toFinset_card_of_nodup h.done_nodup]
    simpa using hcount
  · intro hne
    obtain ⟨p, hp⟩ := exists_mem_of_ne_nil start hne
    have hsize := h.size (ne_nil_of_mem (hdone p hp))
    rwa [h.total_eq, hset] at hsize

theorem Searching.visit_ok (h : Searching pool limits bytes num start total stage done) (hexact : Exact pool)
    (hsized : Sized pool) (hstart : ∀ p ∈ start, p ∈ pool.keys)
    (hpasses : PassesChecks pool limits bytes num start) (hpick : stage.Perm (x :: rest)) :
    ∃ total', pool.visitAncestor limits bytes num total x rest (insertNew memoryBytes x done) = .ok total' := by
  have hlinked := hexact.linked
  have hx : x ∈ stage := hpick.mem_iff.mpr mem_cons_self
  have hnot : x ∉ done := h.apart x hx
  have hmem : x ∈ pool.ancestorSet start := (h.mem_ancestorSet hlinked hstart).mpr (.inr ⟨x, hx, .refl⟩)
  obtain ⟨hkey, p, hp, hreach⟩ := mem_ancestorSet.mp hmem
  obtain ⟨e, hfind⟩ := mem_keys.mp hkey
  refine ⟨_, (visitAncestor_ok_iff hfind).mpr ⟨rfl, ?_, ?_, ?_⟩⟩
  · exact (descendantsWithin_iff hexact hfind).mpr ⟨hpasses.size x hmem, hpasses.count x hmem⟩
  · have hle : total + e.getTxSize ≤ bytes + ∑ a ∈ pool.ancestorSet start, pool.sizeOf a := by
      have hsub : insert x done.toFinset ⊆ pool.ancestorSet start := by
        intro a ha
        rcases mem_insert.mp ha with rfl | ha
        · exact hmem
        · exact (h.mem_ancestorSet hlinked hstart).mpr (.inl (mem_toFinset.mp ha))
      have hsum := sum_le_sum_of_subset_of_nonneg hsub fun a _ _ => sizeOf_nonneg hsized a
      rw [sum_insert (by simpa using hnot), sizeOf_eq hfind] at hsum
      rw [h.total_eq]
      omega
    by_contra hexceeds
    rw [Bool.not_eq_false] at hexceeds
    have hlast := exceedsSize_mono hle hexceeds
    rw [hpasses.ancestorSize (ne_nil_of_mem hp)] at hlast
    cases hlast
  · intro hparents
    rw [← parentsOf_eq hfind] at hparents ⊢
    have hstarted : ∃ p ∈ start, pool.parentsOf p ≠ [] := by
      rcases ReflTransGen.cases_head hreach with rfl | ⟨_, hq, -⟩
      · exact ⟨p, hp, hparents⟩
      · exact ⟨p, hp, ne_nil_of_mem (hlinked.parents.mpr hq)⟩
    have hle := (h.toFrontier.step hpick).length_le hlinked hstart
    by_contra hexceeds
    rw [Bool.not_eq_false] at hexceeds
    have hlast := exceedsCount_mono (n := (pool.ancestorSet start).card + num) (by omega) hexceeds
    rw [hpasses.ancestorCount hstarted] at hlast
    cases hlast

theorem ancestorWalk_spec (hexact : Exact pool) (hsized : Sized pool) (hstaged : ∀ p ∈ staged, p ∈ pool.keys)
    (hnodup : staged.Nodup) {r : Except WalkStop (List Uint256)} (hwalk : AncestorWalk pool limits bytes num staged r) :
    (∃ out, r = .ok out ∧ out.Nodup ∧ out.toFinset = pool.ancestorSet staged ∧
      PassesChecks pool limits bytes num staged) ∨
      (∃ l, r = .error (.limit l)) ∧ ¬PassesChecks pool limits bytes num staged := by
  have hend := hwalk.rule (k := Searching pool limits bytes num staged)
    (fun s s' x stage rest done hpick hvisit h => h.step hexact.linked hstaged hpick hvisit) (.begin hnodup)
  rcases hend with ⟨total, out, rfl, hdone⟩ | ⟨total, x, stage, rest, done, _, rfl, hsearch, hpick, hvisit⟩
  · obtain ⟨hset, hpasses⟩ := hdone.finish hexact hstaged
    exact .inl ⟨out, rfl, hdone.done_nodup, hset, hpasses⟩
  · right
    have hx : x ∈ stage := hpick.mem_iff.mpr mem_cons_self
    obtain ⟨hkey, -⟩ := mem_ancestorSet.mp ((hsearch.mem_ancestorSet hexact.linked hstaged).mpr (.inr ⟨x, hx, .refl⟩))
    obtain ⟨_, hfind⟩ := mem_keys.mp hkey
    obtain ⟨l, rfl⟩ := visitAncestor_error hfind hvisit
    refine ⟨⟨l, rfl⟩, fun hpasses => ?_⟩
    obtain ⟨_, hok⟩ := hsearch.visit_ok hexact hsized hstaged hpasses hpick
    rw [hvisit] at hok
    cases hok

theorem ancestorWalk_code (hlinked : Linked pool.Spends pool) (hstaged : ∀ p ∈ staged, p ∈ pool.keys)
    (hnodup : staged.Nodup) :
    AncestorWalk pool limits bytes num staged (pool.calculateAncestorsAndCheckLimits bytes num staged limits) := by
  apply walks_walk
  intro hendless
  obtain ⟨_, x, hx, _, _, hvisit⟩ :=
      walk_error hendless (U := pool.mapTx.keys) (fun x _ y hy => hlinked.parentsOf_mem hy)
    (fun x hx => ⟨mem_toFinset.mp (hstaged x hx), not_mem_nil⟩) (by simp) nodup_nil hnodup
    (by rw [← keys_length]; exact Nat.le_add_left _ _)
  obtain ⟨_, hfind⟩ := mem_keys.mp (mem_toFinset.mpr hx)
  obtain ⟨_, hlimit⟩ := visitAncestor_error hfind hvisit
  cases hlimit

/-! ## When the limits are seen -/

def Answers (pool : CTxMemPool) (limits : Limits) (bytes : Int) (num : Nat) (staged : List Uint256)
    (r : Except WalkStop (List Uint256)) : Prop :=
  (WithinLimits pool limits bytes num staged →
    ∃ out, r = .ok out ∧ out.Nodup ∧ out.toFinset = pool.ancestorSet staged) ∧
    (¬WithinLimits pool limits bytes num staged → ∃ l, r = .error (.limit l))

/-- Where no staged entry has a parent in the pool, few are staged or something else is exceeded. -/
structure LimitsSeen (pool : CTxMemPool) (limits : Limits) (bytes : Int) (num : Nat) (staged : List Uint256) :
    Prop where
  count : (∀ p ∈ staged, pool.parentsOf p = []) → DescendantsWithin pool limits bytes num staged →
    exceedsSize (bytes + ∑ p ∈ staged.toFinset, pool.sizeOf p) limits.ancestorSizeVbytes = false →
    exceedsCount (staged.length + num) limits.ancestorCount = false
  size : staged = [] → exceedsSize bytes limits.ancestorSizeVbytes = false

theorem ancestorSet_of_parentless (hlinked : Linked pool.Spends pool) (hstaged : ∀ p ∈ staged, p ∈ pool.keys)
    (hparentless : ∀ p ∈ staged, pool.parentsOf p = []) : pool.ancestorSet staged = staged.toFinset := by
  ext a
  rw [mem_ancestorSet, mem_toFinset]
  constructor
  · rintro ⟨-, p, hp, hreach⟩
    rcases ReflTransGen.cases_head hreach with rfl | ⟨_, hq, -⟩
    · exact hp
    · have hparent := hlinked.parents.mpr hq
      rw [hparentless p hp] at hparent
      cases hparent
  · intro ha
    exact ⟨hstaged a ha, a, ha, .refl⟩

theorem passesChecks_iff_withinLimits (hlinked : Linked pool.Spends pool) (hstaged : ∀ p ∈ staged, p ∈ pool.keys)
    (hnodup : staged.Nodup) :
    (PassesChecks pool limits bytes num staged → WithinLimits pool limits bytes num staged) ↔
      LimitsSeen pool limits bytes num staged := by
  constructor
  · intro h
    refine ⟨fun hparentless hdesc hsize => ?_, ?_⟩
    · have hset := ancestorSet_of_parentless hlinked hstaged hparentless
      have hwithin := h ⟨hdesc, fun ⟨p, hp, hparents⟩ => absurd (hparentless p hp) hparents, fun _ => hset ▸ hsize⟩
      have hcount := hwithin.ancestorCount
      rwa [hset, toFinset_card_of_nodup hnodup] at hcount
    · rintro rfl
      have hset := ancestorSet_of_parentless hlinked hstaged nofun
      have hnone : ∀ a, a ∉ pool.ancestorSet [] := by
        intro a
        simp [hset]
      have hwithin := h ⟨⟨fun a ha => absurd ha (hnone a), fun a ha => absurd ha (hnone a)⟩,
          fun hsome => absurd hsome (by simp), fun hne => absurd rfl hne⟩
      have hsize := hwithin.ancestorSize
      rwa [hset, toFinset_nil, sum_empty, Int.add_zero] at hsize
  · intro hseen hpasses
    have hsize : exceedsSize (bytes + ∑ a ∈ pool.ancestorSet staged, pool.sizeOf a) limits.ancestorSizeVbytes =
        false := by
      by_cases hempty : staged = []
      · have hset := ancestorSet_of_parentless hlinked hstaged (by simp [hempty])
        rw [hset, hempty, toFinset_nil, sum_empty, Int.add_zero]
        exact hseen.size hempty
      · exact hpasses.ancestorSize hempty
    refine ⟨hpasses.toDescendantsWithin, ?_, hsize⟩
    by_cases hparents : ∃ p ∈ staged, pool.parentsOf p ≠ []
    · exact hpasses.ancestorCount hparents
    · have hparentless : ∀ p ∈ staged, pool.parentsOf p = [] := fun p hp => not_not.mp fun hne => hparents ⟨p, hp, hne⟩
      have hset := ancestorSet_of_parentless hlinked hstaged hparentless
      rw [hset, toFinset_card_of_nodup hnodup]
      exact hseen.count hparentless hpasses.toDescendantsWithin (hset ▸ hsize)

/-- The answer is right where the limits are seen, and only there. -/
theorem calculateAncestorsAndCheckLimits_exact_iff (hexact : Exact pool) (hsized : Sized pool)
    (hstaged : ∀ p ∈ staged, p ∈ pool.keys) (hnodup : staged.Nodup) :
    (Answers pool limits bytes num staged (pool.calculateAncestorsAndCheckLimits bytes num staged limits) ∧
      ∀ r, AncestorWalk pool limits bytes num staged r → Answers pool limits bytes num staged r) ↔
      LimitsSeen pool limits bytes num staged := by
  have hcode : AncestorWalk pool limits bytes num staged _ := ancestorWalk_code hexact.linked hstaged hnodup
  rw [← passesChecks_iff_withinLimits hexact.linked hstaged hnodup]
  constructor
  · rintro ⟨hanswers, -⟩ hpasses
    rcases ancestorWalk_spec hexact hsized hstaged hnodup hcode with ⟨out, hout, -⟩ | ⟨-, hnot⟩
    · by_contra hbeyond
      obtain ⟨l, hl⟩ := hanswers.2 hbeyond
      rw [hout] at hl
      cases hl
    · exact absurd hpasses hnot
  · intro hwithin
    have hall : ∀ r, AncestorWalk pool limits bytes num staged r → Answers pool limits bytes num staged r := by
      intro r hwalk
      rcases ancestorWalk_spec hexact hsized hstaged hnodup hwalk with ⟨out, rfl, hout, hset,
          hpasses⟩ | ⟨⟨l, rfl⟩, hnot⟩
      · exact ⟨fun _ => ⟨out, rfl, hout, hset⟩, fun hbeyond => absurd (hwithin hpasses) hbeyond⟩
      · exact ⟨fun h => absurd ⟨h.toDescendantsWithin, fun _ => h.ancestorCount, fun _ => h.ancestorSize⟩ hnot,
          fun _ => ⟨l, rfl⟩⟩
    exact ⟨hall _ hcode, hall⟩

/-- The parent's child, within and beyond the limit on the count. -/
theorem familyPool_answered : Answers familyPool ⟨some 3, some 101000, some 25, some 101000⟩ 100 1 [20]
    (familyPool.calculateAncestorsAndCheckLimits 100 1 [20] ⟨some 3, some 101000, some 25, some 101000⟩) ∧
    Answers familyPool ⟨some 2, some 101000, some 25, some 101000⟩ 100 1 [20]
      (familyPool.calculateAncestorsAndCheckLimits 100 1 [20] ⟨some 2, some 101000, some 25, some 101000⟩) := by
  have hsized : Sized familyPool := by
    intro k e hfind
    have hall : ∀ s ∈ familyPool.mapTx.entries, 0 ≤ s.2.getTxSize := by decide
    exact hall ⟨k, e⟩ (AList.mem_lookup_iff.mp hfind)
  have hstaged : ∀ p ∈ ([20] : List Uint256), p ∈ familyPool.keys := by
    intro p hp
    rw [List.mem_singleton] at hp
    subst hp
    exact mem_keys_of_find (e := familyChild) rfl
  have hparents : ∀ limits, LimitsSeen familyPool limits 100 1 [20] := by
    intro limits
    refine ⟨fun hparentless => ?_, nofun⟩
    have hnone := hparentless 20 List.mem_cons_self
    have hsome : familyPool.parentsOf 20 = [10] := by decide
    rw [hsome] at hnone
    cases hnone
  exact ⟨((calculateAncestorsAndCheckLimits_exact_iff familyPool_exact hsized hstaged (by decide)).mpr (hparents _)).1,
    ((calculateAncestorsAndCheckLimits_exact_iff familyPool_exact hsized hstaged (by decide)).mpr (hparents _)).1⟩

/-- 150000 vbytes without ancestors pass a limit of 101000. -/
theorem large_entry_unseen : ∃ pool : CTxMemPool, Exact pool ∧ Sized pool ∧
    ¬Answers pool ⟨some 25, some 101000, some 25, some 101000⟩ 150000 1 []
      (pool.calculateAncestorsAndCheckLimits 150000 1 [] ⟨some 25, some 101000, some 25, some 101000⟩) := by
  refine ⟨{}, exact_of_isExact (by decide), fun {k e} hfind => ?_, fun hanswers => ?_⟩
  · cases hfind
  · have hbeyond : ¬WithinLimits ({} : CTxMemPool) ⟨some 25, some 101000, some 25, some 101000⟩ 150000 1 [] := by
      intro hwithin
      have hset : ({} : CTxMemPool).ancestorSet [] = ∅ := by
        ext a
        simp [mem_ancestorSet]
      have hsize := hwithin.ancestorSize
      rw [hset] at hsize
      cases hsize
    obtain ⟨_, hl⟩ := hanswers.2 hbeyond
    cases hl

end FullNode.Mempool.CTxMemPool
