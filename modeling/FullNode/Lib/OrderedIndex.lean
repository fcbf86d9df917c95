import Mathlib.Data.List.Sort

/-!
# Ordered indices over one set of elements

An ordered index is a list sorted by a key. An iterator is the element it points at.
-/

namespace FullNode

open List

namespace OrderedIndex

variable {α κ : Type} [LinearOrder κ] {key : α → κ} {x y a : α} {l : List α}

def Ordered (key : α → κ) (l : List α) : Prop := l.Pairwise fun a b => key a ≤ key b

instance (key : α → κ) (l : List α) : Decidable (Ordered key l) :=
  inferInstanceAs (Decidable (l.Pairwise fun a b => key a ≤ key b))

def insert (key : α → κ) (x : α) (l : List α) : List α := l.orderedInsert (fun a b => key a < key b) x

theorem insert_perm (x : α) (l : List α) : (insert key x l).Perm (x :: l) := perm_orderedInsert _ x l

theorem insert_ordered (h : Ordered key l) : Ordered key (insert key x l) := by
  induction l with
  | nil => exact pairwise_singleton _ _
  | cons b l ih =>
    obtain ⟨hb, hl⟩ := pairwise_cons.mp h
    unfold insert
    rw [orderedInsert_cons]
    split
    · next hlt =>
      refine pairwise_cons.mpr ⟨fun c hc => ?_, h⟩
      rcases mem_cons.mp hc with rfl | hc
      · exact le_of_lt hlt
      · exact le_trans (le_of_lt hlt) (hb c hc)
    · next hge =>
      refine pairwise_cons.mpr ⟨fun c hc => ?_, ih hl⟩
      rcases mem_cons.mp ((insert_perm x l).mem_iff.mp hc) with rfl | hc
      · exact not_lt.mp hge
      · exact hb c hc

def insertNew [DecidableEq α] (key : α → κ) (x : α) (l : List α) : List α := if x ∈ l then l else insert key x l

theorem mem_insertNew [DecidableEq α] : a ∈ insertNew key x l ↔ a = x ∨ a ∈ l := by
  unfold insertNew
  split
  · next hx =>
    constructor
    · exact .inr
    · rintro (rfl | ha)
      · exact hx
      · exact ha
  · rw [(insert_perm x l).mem_iff, mem_cons]

theorem insertNew_nodup [DecidableEq α] (h : l.Nodup) : (insertNew key x l).Nodup := by
  unfold insertNew
  split
  · exact h
  · next hx =>
    rw [(insert_perm x l).nodup_iff]
    exact nodup_cons.mpr ⟨hx, h⟩

theorem insertNew_length [DecidableEq α] (hx : x ∉ l) : (insertNew key x l).length = l.length + 1 := by
  unfold insertNew
  rw [if_neg hx, (insert_perm x l).length_eq, length_cons]

def lowerBound (key : α → κ) (k : κ) (l : List α) : Option α := l.find? fun a => k ≤ key a

variable {k : κ}

theorem lowerBound_some (h : lowerBound key k l = some x) : x ∈ l ∧ k ≤ key x :=
  ⟨mem_of_find?_eq_some h, by simpa using find?_some h⟩

variable (hl : Ordered key l)
include hl

theorem lowerBound_le (hy : y ∈ l) (hk : k ≤ key y) : ∃ x, lowerBound key k l = some x ∧ key x ≤ key y := by
  induction l with
  | nil => cases hy
  | cons b l ih =>
    obtain ⟨hb, hl⟩ := pairwise_cons.mp hl
    unfold lowerBound
    rw [find?_cons]
    split
    · refine ⟨b, rfl, ?_⟩
      rcases mem_cons.mp hy with rfl | hy
      · exact le_rfl
      · exact hb y hy
    · next hlt =>
      rcases mem_cons.mp hy with rfl | hy
      · simp [hk] at hlt
      · exact ih hl hy

theorem mem_takeWhile {p : α → Bool} (ha : a ∈ l) (hp : ∀ b ∈ l, key b ≤ key a → p b = true) :
    a ∈ l.takeWhile p := by
  induction l with
  | nil => cases ha
  | cons b l ih =>
    obtain ⟨hb, hl⟩ := pairwise_cons.mp hl
    rcases mem_cons.mp ha with rfl | ha
    · rw [takeWhile_cons_of_pos (hp a mem_cons_self le_rfl)]
      exact mem_cons_self
    · rw [takeWhile_cons_of_pos (hp b mem_cons_self (hb a ha))]
      exact mem_cons_of_mem _ (ih hl ha fun c hc => hp c (mem_cons_of_mem _ hc))

theorem mem_dropWhile : a ∈ l.dropWhile (key · < k) ↔ a ∈ l ∧ k ≤ key a := by
  induction l with
  | nil => simp
  | cons b l ih =>
    obtain ⟨hb, hl⟩ := pairwise_cons.mp hl
    rw [dropWhile_cons]
    split
    · next hlt =>
      rw [ih hl, mem_cons]
      simp only [decide_eq_true_eq] at hlt
      constructor
      · rintro ⟨ha, hk⟩
        exact ⟨.inr ha, hk⟩
      · rintro ⟨rfl | ha, hk⟩
        · exact absurd hlt (not_lt.mpr hk)
        · exact ⟨ha, hk⟩
    · next hge =>
      simp only [decide_eq_true_eq, not_lt] at hge
      constructor
      · intro ha
        refine ⟨ha, ?_⟩
        rcases mem_cons.mp ha with rfl | ha
        · exact hge
        · exact le_trans hge (hb a ha)
      · exact fun h => h.1

theorem exists_head_le (hy : y ∈ l) : ∃ n, l.head? = some n ∧ key n ≤ key y := by
  cases l with
  | nil => cases hy
  | cons n l =>
    refine ⟨n, rfl, ?_⟩
    rcases mem_cons.mp hy with rfl | hy
    · exact le_rfl
    · exact (pairwise_cons.mp hl).1 y hy

theorem exists_getLast_le (hy : y ∈ l) : ∃ p, l.getLast? = some p ∧ key y ≤ key p := by
  rcases eq_nil_or_concat l with rfl | ⟨_, p, rfl⟩
  · cases hy
  · rw [concat_eq_append] at hy hl ⊢
    refine ⟨p, getLast?_concat, ?_⟩
    rcases mem_append.mp hy with hy | hy
    · exact (pairwise_append.mp hl).2.2 y hy p mem_cons_self
    · rw [mem_singleton.mp hy]

omit hl

section Neighbours

variable [DecidableEq α]

/-- Changes an element. It stays where it is if the order allows. -/
def replace (key : α → κ) (x y : α) (l : List α) : List α :=
  if Ordered key (l.replace x y) then l.replace x y else insert key y (l.erase x)

theorem replace_perm (h : x ∈ l) : (replace key x y l).Perm (y :: l.erase x) := by
  unfold replace
  split
  · obtain ⟨_, _, hbefore, hl, herase⟩ := exists_erase_eq h
    rw [herase, hl, replace_append_right hbefore, replace_cons_self]
    exact perm_middle
  · exact insert_perm y _

theorem replace_ordered (h : Ordered key l) : Ordered key (replace key x y l) := by
  unfold replace
  split
  · next hstays => exact hstays
  · exact insert_ordered (h.sublist erase_sublist)

def next (x : α) (l : List α) : Option α := (l.dropWhile (· ≠ x)).tail.head?

def prev (x : α) (l : List α) : Option α := (l.takeWhile (· ≠ x)).getLast?

theorem split_at (h : x ∈ l) : ∃ before after, l = before ++ x :: after ∧
    prev x l = before.getLast? ∧ next x l = after.head? ∧ l.dropWhile (· ≠ x) = x :: after := by
  obtain ⟨before, after, hbefore, rfl, -⟩ := exists_erase_eq h
  have hne : ∀ a ∈ before, decide (a ≠ x) = true := by
    intro a ha
    simp only [ne_eq, decide_not, Bool.not_eq_true', decide_eq_false_iff_not]
    rintro rfl
    exact hbefore ha
  have hdrop : (before ++ x :: after).dropWhile (· ≠ x) = x :: after := by
    rw [dropWhile_append_of_pos hne]
    simp
  refine ⟨before, after, rfl, ?_, ?_, hdrop⟩
  · unfold prev
    rw [takeWhile_append_of_pos hne]
    simp
  · unfold next
    rw [hdrop]
    rfl

variable (hl : Ordered key l)
include hl

theorem next_le (hx : x ∈ l) (hy : y ∈ l) : key y ≤ key x ∨ ∃ n, next x l = some n ∧ key n ≤ key y := by
  obtain ⟨_, _, rfl, -, hnext, -⟩ := split_at hx
  obtain ⟨-, hafter, hbefore⟩ := pairwise_append.mp hl
  rcases mem_append.mp hy with hy | hy
  · exact .inl (hbefore y hy x mem_cons_self)
  rcases mem_cons.mp hy with rfl | hy
  · exact .inl le_rfl
  rw [hnext]
  exact .inr (exists_head_le (pairwise_cons.mp hafter).2 hy)

theorem next_some (hnodup : l.Nodup) (hx : x ∈ l) (h : next x l = some y) : y ∈ l ∧ y ≠ x ∧ key x ≤ key y := by
  obtain ⟨_, _, rfl, -, hnext, -⟩ := split_at hx
  rw [hnext] at h
  have hy := mem_of_head? h
  obtain ⟨-, hafter, -⟩ := pairwise_append.mp hl
  obtain ⟨-, hnodup, -⟩ := nodup_append.mp hnodup
  refine ⟨mem_append_right _ (mem_cons_of_mem _ hy), ?_, (pairwise_cons.mp hafter).1 y hy⟩
  rintro rfl
  exact (nodup_cons.mp hnodup).1 hy

theorem le_prev (hx : x ∈ l) (hy : y ∈ l) : key x ≤ key y ∨ ∃ p, prev x l = some p ∧ key y ≤ key p := by
  obtain ⟨_, _, rfl, hprev, -, -⟩ := split_at hx
  obtain ⟨hbefore, hafter, -⟩ := pairwise_append.mp hl
  rcases mem_append.mp hy with hy | hy
  · rw [hprev]
    exact .inr (exists_getLast_le hbefore hy)
  · rcases mem_cons.mp hy with rfl | hy
    · exact .inl le_rfl
    · exact .inl ((pairwise_cons.mp hafter).1 y hy)

theorem prev_some (hnodup : l.Nodup) (hx : x ∈ l) (h : prev x l = some y) : y ∈ l ∧ y ≠ x ∧ key y ≤ key x := by
  obtain ⟨_, _, rfl, hprev, -, -⟩ := split_at hx
  rw [hprev] at h
  have hy := mem_of_getLast? h
  obtain ⟨-, -, hbefore⟩ := pairwise_append.mp hl
  obtain ⟨-, -, hdisjoint⟩ := nodup_append.mp hnodup
  exact ⟨mem_append_left _ hy, hdisjoint y hy x mem_cons_self, hbefore y hy x mem_cons_self⟩

theorem dropWhile_ne (hx : x ∈ l) :
    Ordered key (l.dropWhile (· ≠ x)) ∧ (∀ a ∈ l.dropWhile (· ≠ x), a ∈ l ∧ key x ≤ key a) ∧
      ∀ a ∈ l, a ∉ l.dropWhile (· ≠ x) → ∃ p, prev x l = some p ∧ key a ≤ key p := by
  obtain ⟨_, _, hsplit, hprev, -, hdrop⟩ := split_at hx
  rw [hdrop, hprev]
  subst hsplit
  obtain ⟨hbefore, hafter, -⟩ := pairwise_append.mp hl
  refine ⟨hafter, fun a ha => ⟨mem_append_right _ ha, ?_⟩, fun a ha hnot => ?_⟩
  · rcases mem_cons.mp ha with rfl | ha
    · exact le_rfl
    · exact (pairwise_cons.mp hafter).1 a ha
  · have ha := (mem_append.mp ha).resolve_right hnot
    exact exists_getLast_le hbefore ha

omit hl

end Neighbours

end OrderedIndex

/-! ## Three indices -/

open OrderedIndex

variable {α κ₁ κ₂ κ₃ : Type} [LinearOrder κ₁] [LinearOrder κ₂] [LinearOrder κ₃]

structure MultiIndex (first : α → κ₁) (second : α → κ₂) (third : α → κ₃) where
  byFirst : List α
  bySecond : List α
  byThird : List α
  byFirst_ordered : Ordered first byFirst
  byFirst_unique : (byFirst.map first).Nodup
  bySecond_ordered : Ordered second bySecond
  bySecond_perm : bySecond.Perm byFirst
  byThird_ordered : Ordered third byThird
  byThird_perm : byThird.Perm byFirst

namespace MultiIndex

variable {first : α → κ₁} {second : α → κ₂} {third : α → κ₃} {m m' : MultiIndex first second third} {x y a : α}

instance : Membership α (MultiIndex first second third) := ⟨fun m x => x ∈ m.byFirst⟩

theorem mem_bySecond : a ∈ m.bySecond ↔ a ∈ m := m.bySecond_perm.mem_iff

theorem mem_byThird : a ∈ m.byThird ↔ a ∈ m := m.byThird_perm.mem_iff

theorem byFirst_nodup (m : MultiIndex first second third) : m.byFirst.Nodup := m.byFirst_unique.of_map

theorem bySecond_nodup (m : MultiIndex first second third) : m.bySecond.Nodup :=
  m.bySecond_perm.nodup_iff.mpr m.byFirst_nodup

def empty : MultiIndex first second third :=
  ⟨[], [], [], List.Pairwise.nil, List.nodup_nil, List.Pairwise.nil, .nil, List.Pairwise.nil, .nil⟩

def find (k : κ₁) (m : MultiIndex first second third) : Option α := m.byFirst.find? fun a => first a = k

theorem find_some {k : κ₁} (h : m.find k = some x) : x ∈ m ∧ first x = k :=
  ⟨mem_of_find?_eq_some h, by simpa using find?_some h⟩

theorem find_none {k : κ₁} (h : m.find k = none) (hx : x ∈ m) : first x ≠ k := by
  simpa using find?_eq_none.mp h x hx

def emplace (x : α) (m : MultiIndex first second third) : Option (MultiIndex first second third) :=
  if h : first x ∈ m.byFirst.map first then none
  else some
    { byFirst := insert first x m.byFirst
      bySecond := insert second x m.bySecond
      byThird := insert third x m.byThird
      byFirst_ordered := insert_ordered m.byFirst_ordered
      byFirst_unique := ((insert_perm x m.byFirst).map first).nodup_iff.mpr
        (List.nodup_cons.mpr ⟨h, m.byFirst_unique⟩)
      bySecond_ordered := insert_ordered m.bySecond_ordered
      bySecond_perm := ((insert_perm x _).trans (m.bySecond_perm.cons x)).trans (insert_perm x _).symm
      byThird_ordered := insert_ordered m.byThird_ordered
      byThird_perm := ((insert_perm x _).trans (m.byThird_perm.cons x)).trans (insert_perm x _).symm }

theorem emplace_some (h : m.emplace x = some m') :
    m'.byFirst.Perm (x :: m.byFirst) ∧ (∀ a, a ∈ m' ↔ a = x ∨ a ∈ m) ∧ ∀ a ∈ m, first a ≠ first x := by
  unfold emplace at h
  split at h
  · cases h
  · next hfree =>
    cases h
    refine ⟨insert_perm x _, fun a => (insert_perm x _).mem_iff.trans mem_cons, fun a ha heq => hfree ?_⟩
    rw [← heq]
    exact mem_map_of_mem ha

variable [DecidableEq α]

instance (x : α) (m : MultiIndex first second third) : Decidable (x ∈ m) :=
  inferInstanceAs (Decidable (x ∈ m.byFirst))

def erase (x : α) (m : MultiIndex first second third) : MultiIndex first second third where
  byFirst := m.byFirst.erase x
  bySecond := m.bySecond.erase x
  byThird := m.byThird.erase x
  byFirst_ordered := m.byFirst_ordered.sublist List.erase_sublist
  byFirst_unique := m.byFirst_unique.sublist (List.erase_sublist.map first)
  bySecond_ordered := m.bySecond_ordered.sublist List.erase_sublist
  bySecond_perm := m.bySecond_perm.erase x
  byThird_ordered := m.byThird_ordered.sublist List.erase_sublist
  byThird_perm := m.byThird_perm.erase x

theorem mem_erase : a ∈ m.erase x ↔ a ≠ x ∧ a ∈ m := m.byFirst_nodup.mem_erase_iff

/-- Changes an element, unless the new first key is another one's. -/
def modify (x y : α) (m : MultiIndex first second third) : Option (MultiIndex first second third) :=
  if h : x ∈ m ∧ first y ∉ (m.byFirst.erase x).map first then some
    { byFirst := replace first x y m.byFirst
      bySecond := replace second x y m.bySecond
      byThird := replace third x y m.byThird
      byFirst_ordered := replace_ordered m.byFirst_ordered
      byFirst_unique := ((replace_perm h.1).map first).nodup_iff.mpr
        (List.nodup_cons.mpr ⟨h.2, m.byFirst_unique.sublist (List.erase_sublist.map first)⟩)
      bySecond_ordered := replace_ordered m.bySecond_ordered
      bySecond_perm := ((replace_perm (mem_bySecond.mpr h.1)).trans ((m.bySecond_perm.erase x).cons y)).trans
        (replace_perm h.1).symm
      byThird_ordered := replace_ordered m.byThird_ordered
      byThird_perm := ((replace_perm (mem_byThird.mpr h.1)).trans ((m.byThird_perm.erase x).cons y)).trans
        (replace_perm h.1).symm }
  else none

theorem modify_some (h : m.modify x y = some m') : x ∈ m ∧ ∀ a, a ∈ m' ↔ a = y ∨ a ≠ x ∧ a ∈ m := by
  unfold modify at h
  split at h
  · next hmem =>
    cases h
    refine ⟨hmem.1, fun a => (replace_perm hmem.1).mem_iff.trans ?_⟩
    rw [mem_cons, m.byFirst_nodup.mem_erase_iff]
    rfl
  · cases h

theorem modify_ok (hx : x ∈ m) (hfree : ∀ a ∈ m, a ≠ x → first a ≠ first y) :
    ∃ m', m.modify x y = some m' ∧ m'.byFirst.Perm (y :: m.byFirst.erase x) ∧ ∀ a, a ∈ m' ↔ a = y ∨ a ≠ x ∧ a ∈ m := by
  have h : x ∈ m ∧ first y ∉ (m.byFirst.erase x).map first := by
    refine ⟨hx, fun hmem => ?_⟩
    obtain ⟨a, ha, heq⟩ := mem_map.mp hmem
    obtain ⟨hne, ha⟩ := m.byFirst_nodup.mem_erase_iff.mp ha
    exact hfree a ha hne heq
  refine ⟨_, dif_pos h, replace_perm hx, fun a => ?_⟩
  refine (replace_perm hx).mem_iff.trans ?_
  rw [mem_cons, m.byFirst_nodup.mem_erase_iff]
  rfl

end MultiIndex

end FullNode
