import Mathlib.Algebra.BigOperators.Intervals
import Mathlib.Algebra.Order.BigOperators.Group.Finset
import Mathlib.Tactic.Linarith

/-!
# Searching the subsets of a row

A depth-first search decides the indices `0`, `1`, … one after the other. Its place is the stack of the indices it
took, the last one first, and the index it decides next.
-/

namespace FullNode.SubsetSearch

open Finset

variable {sel : List ℕ} {i k n p : ℕ} {S : Finset ℕ} {f : ℕ → Int}

/-! ## Places -/

structure Place (sel : List ℕ) (i : ℕ) : Prop where
  down : sel.Pairwise (· > ·)
  below : ∀ k ∈ sel, k < i

theorem Place.nil (i : ℕ) : Place [] i := ⟨.nil, by simp⟩

theorem Place.mono (h : Place sel i) (hle : i ≤ k) : Place sel k := ⟨h.down, fun j hj => (h.below j hj).trans_le hle⟩

theorem Place.take (h : Place sel i) : Place (i :: sel) (i + 1) := by
  refine ⟨List.pairwise_cons.mpr ⟨h.below, h.down⟩, ?_⟩
  intro k hk
  rcases List.mem_cons.mp hk with rfl | hk
  · omega
  · have := h.below k hk
    omega

theorem Place.pop (h : Place (k :: sel) i) : Place sel k :=
  ⟨(List.pairwise_cons.mp h.down).2, (List.pairwise_cons.mp h.down).1⟩

theorem Place.notMem (h : Place sel i) : i ∉ sel := fun hi => absurd (h.below i hi) (lt_irrefl i)

theorem Place.nodup (h : Place sel i) : sel.Nodup := h.down.imp fun h => h.ne'

theorem Place.subset (h : Place sel i) (hn : i ≤ n) : sel.toFinset ⊆ Finset.range n := by
  intro k hk
  have := h.below k (List.mem_toFinset.mp hk)
  exact mem_range.mpr (by omega)

/-! ## What is still to come -/

def Extends (sel : List ℕ) (i : ℕ) (S : Finset ℕ) : Prop := ∀ j < i, j ∈ S ↔ j ∈ sel

/-- The set goes its own way where the stack took `k`. -/
def Omits (sel : List ℕ) (S : Finset ℕ) : Prop := ∃ k ∈ sel, Extends sel k S ∧ k ∉ S

def Pending (sel : List ℕ) (i : ℕ) (S : Finset ℕ) : Prop := Extends sel i S ∨ Omits sel S

theorem pending_start (S : Finset ℕ) : Pending [] 0 S := .inl fun j hj => by omega

theorem extends_of_pending_nil (h : Pending [] i S) : Extends [] i S := by
  rcases h with h | ⟨_, hk, -⟩
  · exact h
  · cases hk

theorem extends_cons (hk : i ≤ k) : Extends (k :: sel) i S ↔ Extends sel i S := by
  refine forall₂_congr fun j hj => ?_
  rw [List.mem_cons, or_iff_right (by omega)]

theorem Omits.cons (h : Omits sel S) (hplace : Place sel k) : Omits (k :: sel) S := by
  obtain ⟨j, hj, hext, hout⟩ := h
  exact ⟨j, List.mem_cons_of_mem _ hj, (extends_cons (hplace.below j hj).le).mpr hext, hout⟩

theorem Extends.skip (h : Extends sel i S) (hplace : Place sel i) (hi : i ∉ S) : Extends sel (i + 1) S := by
  intro j hj
  rcases Nat.lt_succ_iff_lt_or_eq.mp hj with hj | rfl
  · exact h j hj
  · exact iff_of_false hi hplace.notMem

theorem Pending.take (h : Pending sel i S) (hplace : Place sel i) : Pending (i :: sel) (i + 1) S := by
  rcases h with h | h
  · by_cases hi : i ∈ S
    · refine .inl fun j hj => ?_
      rcases Nat.lt_succ_iff_lt_or_eq.mp hj with hj | rfl
      · rw [h j hj, List.mem_cons, or_iff_right (by omega)]
      · exact iff_of_true hi List.mem_cons_self
    · exact .inr ⟨i, List.mem_cons_self, (extends_cons le_rfl).mpr h, hi⟩
  · exact .inr (h.cons hplace)

theorem Pending.skip (h : Pending sel i S) (hplace : Place sel i) :
    Pending sel (i + 1) S ∨ Extends sel i S ∧ i ∈ S := by
  rcases h with h | h
  · by_cases hi : i ∈ S
    · exact .inr ⟨h, hi⟩
    · exact .inl (.inl (h.skip hplace hi))
  · exact .inl (.inr h)

theorem Pending.pop (h : Pending (k :: sel) i S) (hplace : Place (k :: sel) i) :
    Pending sel (k + 1) S ∨ Extends (k :: sel) i S := by
  rcases h with h | ⟨j, hj, hext, hout⟩
  · exact .inr h
  · rcases List.mem_cons.mp hj with rfl | hj
    · exact .inl (.inl (((extends_cons le_rfl).mp hext).skip hplace.pop hout))
    · exact .inl (.inr ⟨j, hj, (extends_cons (hplace.pop.below j hj).le).mp hext, hout⟩)

/-! ## What came before -/

/-- `T` took an index below `i` that `S` has not, and agrees below. -/
def Before (T S : Finset ℕ) (i : ℕ) : Prop := ∃ k < i, k ∈ T ∧ k ∉ S ∧ ∀ j < k, j ∈ T ↔ j ∈ S

/-- The search has been through `T`. -/
def Passed (sel : List ℕ) (i : ℕ) (T : Finset ℕ) : Prop := ∃ k < i, k ∈ T ∧ k ∉ sel ∧ Extends sel k T

variable {T : Finset ℕ}

theorem Passed.before (h : Passed sel i T) (hext : Extends sel i S) : Before T S i := by
  obtain ⟨k, hk, hin, hout, hsame⟩ := h
  exact ⟨k, hk, hin, fun hS => hout ((hext k hk).mp hS), fun j hj => (hsame j hj).trans (hext j (hj.trans hk)).symm⟩

theorem Passed.skip (h : Passed sel i T) : Passed sel (i + 1) T := by
  obtain ⟨k, _, hrest⟩ := h
  exact ⟨k, by omega, hrest⟩

theorem Passed.take (h : Passed sel i T) : Passed (i :: sel) (i + 1) T := by
  obtain ⟨k, hk, hin, hout, hext⟩ := h
  exact ⟨k, by omega, hin, by simp [hk.ne, hout], (extends_cons hk.le).mpr hext⟩

theorem Extends.passed_pop (h : Extends (k :: sel) i T) (hplace : Place (k :: sel) i) : Passed sel (k + 1) T := by
  have hk := hplace.below k List.mem_cons_self
  exact ⟨k, by omega, (h k hk).mpr List.mem_cons_self, hplace.pop.notMem,
    (extends_cons le_rfl).mp fun j hj => h j (hj.trans hk)⟩

theorem Passed.pop (h : Passed (k :: sel) i T) (hplace : Place (k :: sel) i) : Passed sel (k + 1) T := by
  obtain ⟨j, -, hin, hout, hext⟩ := h
  rw [List.mem_cons, not_or] at hout
  by_cases hlt : j < k
  · exact ⟨j, by omega, hin, hout.2, (extends_cons hlt.le).mp hext⟩
  · exact hext.passed_pop ⟨hplace.down, fun l hl => by
      have hk := hplace.pop
      rcases List.mem_cons.mp hl with rfl | hl
      · omega
      · have := hk.below l hl
        omega⟩

/-! ## An index for the one before it -/

/-- The set with `p` for `p + 1`. -/
def exchange (p : ℕ) (S : Finset ℕ) : Finset ℕ := insert p (S.erase (p + 1))

theorem notMem_of_extends (h : Extends sel (p + 1) S) (hp : p ∉ sel) : p ∉ S := by rwa [h p (by omega)]

theorem mem_exchange_of_lt (hk : k < p) : k ∈ exchange p S ↔ k ∈ S := by
  rw [exchange, mem_insert, mem_erase, or_iff_right (by omega), and_iff_right (by omega)]

theorem not_pending_exchange (h : Extends sel (p + 1) S) (hplace : Place sel (p + 1)) (hp : p ∉ sel) :
    ¬ Pending sel (p + 1) (exchange p S) := by
  rintro (hext | ⟨k, hk, -, hout⟩)
  · exact hp ((hext p (by omega)).mp (mem_insert_self _ _))
  · have hlt : k < p := by
      have := hplace.below k hk
      have : k ≠ p := fun hkp => hp (hkp ▸ hk)
      omega
    rw [mem_exchange_of_lt hlt, h k (by omega)] at hout
    exact hout hk

theorem exchange_subset (h : S ⊆ Finset.range n) (hi : p + 1 ∈ S) : exchange p S ⊆ Finset.range n := by
  have := mem_range.mp (h hi)
  exact insert_subset (mem_range.mpr (by omega)) ((erase_subset _ _).trans h)

theorem sum_exchange (f : ℕ → Int) (hp : p ∉ S) (hi : p + 1 ∈ S) :
    ∑ k ∈ exchange p S, f k = ∑ k ∈ S, f k - f (p + 1) + f p := by
  rw [exchange, sum_insert (fun h => hp (mem_of_mem_erase h)), ← sum_erase_add S f hi]
  omega

/-! ## Totals -/

def total (f : ℕ → Int) (sel : List ℕ) : Int := (sel.map f).sum

@[simp] theorem total_nil : total f [] = 0 := rfl

@[simp] theorem total_cons : total f (k :: sel) = f k + total f sel := rfl

theorem Place.total_eq (h : Place sel i) (f : ℕ → Int) : total f sel = ∑ k ∈ sel.toFinset, f k :=
  (List.sum_toFinset f h.nodup).symm

def beyond (i : ℕ) (S : Finset ℕ) : Finset ℕ := S.filter (i ≤ ·)

theorem mem_beyond : k ∈ beyond i S ↔ k ∈ S ∧ i ≤ k := mem_filter

theorem Extends.filter_lt (h : Extends sel i S) (hplace : Place sel i) : S.filter (· < i) = sel.toFinset := by
  ext k
  rw [mem_filter, List.mem_toFinset]
  constructor
  · rintro ⟨hk, hlt⟩
    exact (h k hlt).mp hk
  · intro hk
    have hlt := hplace.below k hk
    exact ⟨(h k hlt).mpr hk, hlt⟩

theorem Extends.sum_eq (h : Extends sel i S) (hplace : Place sel i) (f : ℕ → Int) :
    ∑ k ∈ S, f k = total f sel + ∑ k ∈ beyond i S, f k := by
  rw [hplace.total_eq, ← h.filter_lt hplace, ← sum_filter_add_sum_filter_not S (· < i) f]
  simp only [beyond, not_lt]

theorem Extends.sum_eq_total (h : Extends sel n S) (hplace : Place sel n) (hS : S ⊆ Finset.range n) (f : ℕ → Int) :
    ∑ k ∈ S, f k = total f sel := by
  have hempty : beyond n S = ∅ := filter_eq_empty_iff.mpr fun k hk => not_le.mpr (mem_range.mp (hS hk))
  rw [h.sum_eq hplace f, hempty, sum_empty, add_zero]

theorem beyond_subset (h : S ⊆ Finset.range n) : beyond i S ⊆ Finset.Ico i n := by
  intro k hk
  obtain ⟨hk, hi⟩ := mem_beyond.mp hk
  exact mem_Ico.mpr ⟨hi, mem_range.mp (h hk)⟩

theorem Extends.le_sum (h : Extends sel i S) (hplace : Place sel i) (hf : ∀ k ∈ S, 0 ≤ f k) :
    total f sel ≤ ∑ k ∈ S, f k := by
  rw [h.sum_eq hplace f, le_add_iff_nonneg_right]
  exact sum_nonneg fun k hk => hf k (mem_beyond.mp hk).1

theorem Extends.sum_le (h : Extends sel i S) (hplace : Place sel i) (hS : S ⊆ Finset.range n) (hf : ∀ k < n, 0 ≤ f k) :
    ∑ k ∈ S, f k ≤ total f sel + ∑ k ∈ Finset.Ico i n, f k := by
  rw [h.sum_eq hplace f, add_le_add_iff_left]
  exact sum_le_sum_of_subset_of_nonneg (beyond_subset hS) fun k hk _ => hf k (mem_Ico.mp hk).2

theorem Place.le_total_pop (h : Place (k :: sel) i) (hn : i ≤ n) (hf : ∀ k < n, 0 ≤ f k) :
    total f sel ≤ total f (k :: sel) := by
  have := hf k (by have := h.below k List.mem_cons_self; omega)
  rw [total_cons]
  omega

theorem abs_sum_le (hS : S ⊆ Finset.range n) : |∑ k ∈ S, f k| ≤ ∑ k ∈ Finset.range n, |f k| :=
  (abs_sum_le_sum_abs f S).trans (sum_le_sum_of_subset_of_nonneg hS fun k _ _ => abs_nonneg (f k))

theorem Place.abs_total_le (h : Place sel i) (hn : i ≤ n) (f : ℕ → Int) :
    |total f sel| ≤ ∑ k ∈ Finset.range n, |f k| := by
  rw [h.total_eq f]
  exact abs_sum_le (h.subset hn)

end FullNode.SubsetSearch
