import Mathlib.Algebra.GroupWithZero.Nat
import Mathlib.Data.List.Sort
import Mathlib.Data.List.Perm.Subperm
import Mathlib.Data.Prod.Lex

/-!
# Sorting by a comparator, and dropping the last places

A comparator is a strict weak order. What a sort promises of it is the order of the result and nothing
about equal elements. `eraseLast` sorts, and drops those of the last `k` that a predicate picks.
-/

namespace FullNode

open List

variable {α κ : Type}

abbrev StrictWeak (lt : α → α → Bool) : Prop := IsStrictWeakOrder α fun a b => lt a b = true

namespace StrictWeak

theorem of_key [LinearOrder κ] {lt : α → α → Bool} (key : α → κ) (h : ∀ a b, lt a b = true ↔ key a < key b) :
    StrictWeak lt where
  irrefl a := by simp [h]
  trans a b c := by
    simp only [h]
    exact lt_trans
  incomp_trans a b c := by
    simp only [h, not_lt]
    exact fun hab hbc => ⟨hbc.1.trans hab.1, hab.2.trans hbc.2⟩

variable {lt : α → α → Bool}

theorem asymm (h : StrictWeak lt) {a b : α} (hab : lt a b = true) : lt b a = false := by
  cases hba : lt b a with
  | false => rfl
  | true => exact absurd (h.trans a b a hab hba) (h.irrefl a)

theorem not_trans (h : StrictWeak lt) {a b c : α} (hba : lt b a = false) (hcb : lt c b = false) : lt c a = false := by
  cases hca : lt c a with
  | false => rfl
  | true =>
    have hab : lt a b = false := by
      cases hab : lt a b with
      | false => rfl
      | true => rw [h.trans c a b hca hab] at hcb; cases hcb
    have hbc : lt b c = false := by
      cases hbc : lt b c with
      | false => rfl
      | true => rw [h.trans b c a hbc hca] at hba; cases hba
    have := h.incomp_trans a b c (by simp [hab, hba]) (by simp [hbc, hcb])
    simp [hca] at this

end StrictWeak

/-! ## Sorts -/

/-- An insertion sort puts what has `P` first, if its order does. -/
theorem head_insertionSort {r : α → α → Prop} [DecidableRel r] {P : α → Prop} {l rest : List α} {x y : α}
    (hr : ∀ a ∈ l, ∀ b ∈ l, P a → ¬P b → r a b ∧ ¬r b a) (hsort : l.insertionSort r = y :: rest)
    (hx : x ∈ l) (hP : P x) : P y := by
  induction l generalizing x y rest with
  | nil => cases hx
  | cons b l ih =>
    have hr' : ∀ a ∈ l, ∀ b ∈ l, P a → ¬P b → r a b ∧ ¬r b a := fun a ha b hb =>
      hr a (mem_cons_of_mem _ ha) b (mem_cons_of_mem _ hb)
    rw [insertionSort_cons] at hsort
    cases hl : l.insertionSort r with
    | nil =>
      rw [hl] at hsort
      cases hsort
      have hnone : x ∉ l := fun hin => by simpa [hl] using (mem_insertionSort r).mpr hin
      rwa [(mem_cons.mp hx).resolve_right hnone] at hP
    | cons c rest' =>
      have hc : c ∈ l := (mem_insertionSort r).mp (hl ▸ mem_cons_self)
      rw [hl, orderedInsert] at hsort
      by_contra hy
      split at hsort
      · next hfirst =>
        cases hsort
        have hin : x ∈ l := (mem_cons.mp hx).resolve_left (by rintro rfl; exact hy hP)
        exact (hr c (mem_cons_of_mem _ hc) b mem_cons_self (ih hr' hl hin hP) hy).2 hfirst
      · next hlater =>
        cases hsort
        rcases mem_cons.mp hx with rfl | hin
        · exact hlater (hr x mem_cons_self _ (mem_cons_of_mem _ hc) hP hy).1
        · exact hy (ih hr' hl hin hP)

structure Sorter (α : Type) where
  sort : (α → α → Bool) → List α → List α
  perm : ∀ lt, StrictWeak lt → ∀ l, (sort lt l).Perm l
  sorted : ∀ lt, StrictWeak lt → ∀ l, (sort lt l).Pairwise fun a b => lt b a = false

namespace Sorter

def stable : Sorter α where
  sort lt l := l.insertionSort fun a b => lt b a = false
  perm _ _ l := List.perm_insertionSort _ l
  sorted lt h l := by
    have : Std.Total fun a b => lt b a = false := ⟨fun a b => by
      cases hba : lt b a with
      | false => exact .inl rfl
      | true => exact .inr (h.asymm hba)⟩
    have : IsTrans α fun a b => lt b a = false := ⟨fun _ _ _ => h.not_trans⟩
    exact List.pairwise_insertionSort (fun a b => lt b a = false) l

variable (s : Sorter α)

/-- Sort, then drop those of the last `k` elements that `pred` picks. -/
def eraseLast (lt : α → α → Bool) (k : Nat) (pred : α → Bool) (l : List α) : List α :=
  let sorted := s.sort lt l
  let eraseSize := min k sorted.length
  sorted.take (sorted.length - eraseSize) ++
    (sorted.drop (sorted.length - eraseSize)).filter fun a => !pred a

variable {s} {lt : α → α → Bool} {k : Nat} {pred : α → Bool} {l l' : List α}

section

variable (h : StrictWeak lt)
include h

theorem eraseLast_perm (k : Nat) (pred : α → Bool) (l : List α) :
    ∃ erased, (s.eraseLast lt k pred l ++ erased).Perm l ∧ erased.length ≤ k ∧ ∀ a ∈ erased, pred a = true := by
  rw [eraseLast]
  generalize hn : (s.sort lt l).length - min k (s.sort lt l).length = n
  refine ⟨((s.sort lt l).drop n).filter pred, ?_, ?_, fun a ha => (mem_filter.mp ha).2⟩
  · have hparts := (filter_append_perm pred ((s.sort lt l).drop n)).symm.trans perm_append_comm
    have hsorted := hparts.append_left ((s.sort lt l).take n)
    rw [take_append_drop] at hsorted
    rw [append_assoc]
    exact hsorted.symm.trans (s.perm lt h l)
  · have := length_filter_le pred ((s.sort lt l).drop n)
    rw [length_drop] at this
    omega

theorem eraseLast_subperm (k : Nat) (pred : α → Bool) (l : List α) : (s.eraseLast lt k pred l).Subperm l := by
  obtain ⟨_, hperm, -, -⟩ := eraseLast_perm (s := s) h k pred l
  exact hperm.subperm_left.mp (sublist_append_left _ _).subperm

theorem length_eraseLast_ge (k : Nat) (pred : α → Bool) (l : List α) :
    l.length ≤ (s.eraseLast lt k pred l).length + k := by
  obtain ⟨_, hperm, _, -⟩ := eraseLast_perm (s := s) h k pred l
  have := hperm.length_eq
  rw [length_append] at this
  omega

theorem eraseLast_all (k : Nat) (l : List α) :
    ∃ erased, (s.eraseLast lt k (fun _ => true) l ++ erased).Perm l ∧ erased.length = min k l.length ∧
      ∀ a ∈ s.eraseLast lt k (fun _ => true) l, ∀ b ∈ erased, lt b a = false := by
  have hlen := (s.perm lt h l).length_eq
  have hresult : s.eraseLast lt k (fun _ => true) l = (s.sort lt l).take (l.length - min k l.length) := by
    simp [eraseLast, hlen]
  refine ⟨(s.sort lt l).drop (l.length - min k l.length), ?_, ?_, ?_⟩
  · rw [hresult, take_append_drop]
    exact s.perm lt h l
  · rw [length_drop, hlen]
    omega
  · rw [hresult]
    have hsorted := s.sorted lt h l
    rw [← take_append_drop (l.length - min k l.length) (s.sort lt l), pairwise_append] at hsorted
    exact hsorted.2.2

theorem length_eraseLast_all (k : Nat) (l : List α) : (s.eraseLast lt k (fun _ => true) l).length = l.length - k := by
  obtain ⟨_, hperm, _, -⟩ := eraseLast_all (s := s) h k l
  have := hperm.length_eq
  rw [length_append] at this
  omega

end

/-! ## The `k` first by a key -/

def AmongHighest [LinearOrder κ] (k : Nat) (key : α → κ) (l : List α) (a : α) : Prop :=
  a ∈ l ∧ (l.filter fun b => key a < key b).length < k

variable {key : α → κ}

/-- Where keys differ, none of the `k` highest is left in a part. -/
theorem not_amongHighest_of_mem_eraseLast [LinearOrder κ] {a : α} (h : StrictWeak lt)
    (hkey : ∀ a b, key a ≠ key b → (lt a b = true ↔ key a < key b)) (hkeys : (l.map key).Nodup) (hsub : l'.Subperm l)
    (ha : a ∈ s.eraseLast lt k (fun _ => true) l') : ¬ AmongHighest k key l a := by
  rintro ⟨-, _⟩
  obtain ⟨erased, hperm, _, hle⟩ := eraseLast_all (s := s) h k l'
  obtain ⟨_, hpart, hpartSub⟩ := hperm.subperm.trans hsub
  have hdistinct : ((s.eraseLast lt k (fun _ => true) l' ++ erased).map key).Nodup :=
    (hpart.map key).nodup_iff.mp (hkeys.sublist (hpartSub.map key))
  rw [map_append, nodup_append] at hdistinct
  have habove : ∀ b ∈ erased, key a < key b := by
    intro b hb
    have hne : key a ≠ key b :=
      hdistinct.2.2 _ (mem_map_of_mem ha) _ (mem_map_of_mem hb)
    have hba : ¬ key b < key a := by
      rw [← hkey b a hne.symm, hle a ha b hb]
      simp
    exact lt_of_le_of_ne (not_lt.mp hba) hne
  have herased : erased.Subperm l := ((sublist_append_right _ _).subperm.trans hperm.subperm).trans hsub
  have hall := herased.filter fun b => key a < key b
  rw [filter_eq_self.mpr (by simpa using habove)] at hall
  have hpos : 0 < (s.eraseLast lt k (fun _ => true) l').length := length_pos_of_mem ha
  rw [length_eraseLast_all h k l'] at hpos
  have := hall.length_le
  omega

/-! ## Pass after pass -/

structure Pass (α : Type) where
  lt : α → α → Bool
  k : Nat
  pred : α → Bool := fun _ => true

def erasePasses (s : Sorter α) : List (Pass α) → List α → List α
  | [], l => l
  | p :: passes, l => erasePasses s passes (s.eraseLast p.lt p.k p.pred l)

variable {passes : List (Pass α)}

section

variable (h : ∀ p ∈ passes, StrictWeak p.lt)
include h

theorem erasePasses_subperm : (s.erasePasses passes l).Subperm l := by
  induction passes generalizing l with
  | nil => exact .refl l
  | cons p passes ih =>
    exact (ih fun p hp => h p (mem_cons_of_mem _ hp)).trans (eraseLast_subperm (h p mem_cons_self) p.k p.pred l)

theorem length_erasePasses : l.length ≤ (s.erasePasses passes l).length + (passes.map (·.k)).sum := by
  induction passes generalizing l with
  | nil => simp [erasePasses]
  | cons p passes ih =>
    have hfirst := length_eraseLast_ge (s := s) (h p mem_cons_self) p.k p.pred l
    have hrest := ih (l := s.eraseLast p.lt p.k p.pred l) fun p hp => h p (mem_cons_of_mem _ hp)
    rw [map_cons, sum_cons]
    rw [erasePasses]
    omega

/-- A pass without a condition spares the `k` highest. -/
theorem not_amongHighest_of_mem_erasePasses [LinearOrder κ] {a : α} {p : Pass α}
    (hp : p ∈ passes) (hpred : p.pred = fun _ => true)
    (hkey : ∀ a b, key a ≠ key b → (p.lt a b = true ↔ key a < key b)) (hkeys : (l.map key).Nodup)
    (hsub : l'.Subperm l) (ha : a ∈ s.erasePasses passes l') : ¬ AmongHighest p.k key l a := by
  induction passes generalizing l' with
  | nil => cases hp
  | cons q passes ih =>
    have hrest : ∀ p ∈ passes, StrictWeak p.lt := fun p hp => h p (mem_cons_of_mem _ hp)
    have hq := eraseLast_subperm (s := s) (h q mem_cons_self) q.k q.pred l'
    rw [erasePasses] at ha
    rcases mem_cons.mp hp with rfl | hp
    · have ha := (erasePasses_subperm hrest).subset ha
      rw [hpred] at ha
      exact not_amongHighest_of_mem_eraseLast (h p mem_cons_self) hkey hkeys hsub ha
    · exact ih hrest hp (hq.trans hsub) ha

end

end Sorter

end FullNode
