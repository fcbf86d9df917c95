import Mathlib.Data.BitVec
import Mathlib.Data.List.AList
import Mathlib.Algebra.BigOperators.Group.List.Basic

/-!
# Maps with a size, and loops over their keys

`forEach` runs a step over the entries of a list and stops at the first error, keeping the state reached. When each
step only looks at its own key, the loop acts on every key once and by itself.
-/

namespace FullNode

open List Option

abbrev AssocMap (κ v : Type) := AList fun _ : κ => v

namespace AssocMap

variable {κ v σ ε α : Type}

/-! ## Sizes -/

def sumBy (f : v → Nat) (m : AssocMap κ v) : Nat := (m.entries.map fun s => f s.2).sum

variable [DecidableEq κ]

variable {l : List (Σ _ : κ, v)} {k : κ} {e : v} {m : AssocMap κ v}

/-! ## Lookups -/

variable {k' : κ} {x : v}

theorem lookup_insert_cases (h : (m.insert k e).lookup k' = some x) :
    (k' = k ∧ x = e) ∨ (k' ≠ k ∧ m.lookup k' = some x) := by
  by_cases hk : k' = k
  · rw [hk, AList.lookup_insert, some.injEq] at h
    exact .inl ⟨hk, h.symm⟩
  · rw [AList.lookup_insert_ne hk] at h
    exact .inr ⟨hk, h⟩

theorem lookup_erase_cases (h : (m.erase k).lookup k' = some x) : k' ≠ k ∧ m.lookup k' = some x := by
  by_cases hk : k' = k
  · rw [hk, AList.lookup_erase] at h
    cases h
  · rw [AList.lookup_erase_ne hk] at h
    exact ⟨hk, h⟩

variable (f : v → Nat)

theorem sum_kerase (h : e ∈ l.dlookup k) :
    (l.map fun s => f s.2).sum = f e + ((l.kerase k).map fun s => f s.2).sum := by
  induction l with
  | nil => simp at h
  | cons s l ih =>
    by_cases hk : k = s.1
    · subst hk
      obtain ⟨k, _⟩ := s
      simp only [dlookup_cons_eq, mem_def, some.injEq] at h
      rw [kerase_cons_eq rfl, ← h]
      simp
    · rw [dlookup_cons_ne l s hk] at h
      rw [kerase_cons_ne hk]
      simp only [map_cons, sum_cons, ih h]
      omega

theorem sumBy_of_lookup (h : m.lookup k = some e) : sumBy f m = f e + sumBy f (m.erase k) :=
  sum_kerase f h

theorem sumBy_erase_of_none (h : m.lookup k = none) : sumBy f (m.erase k) = sumBy f m := by
  have hk : k ∉ m.entries.keys := AList.lookup_eq_none.mp h
  have hentries : (m.erase k).entries = m.entries := kerase_of_notMem_keys hk
  unfold sumBy
  rw [hentries]

theorem sumBy_insert (m : AssocMap κ v) (k : κ) (e : v) : sumBy f (m.insert k e) = f e + sumBy f (m.erase k) := by
  unfold sumBy
  rw [AList.entries_insert]
  rfl

theorem entries_erase_perm (h : m.entries.Perm (⟨k, e⟩ :: l)) : (m.erase k).entries.Perm l := by
  have herase : (m.erase k).entries.Perm (kerase k (⟨k, e⟩ :: l)) := h.kerase m.nodupKeys
  rwa [kerase_cons_eq (show k = (⟨k, e⟩ : Σ _ : κ, v).1 from rfl)] at herase

/-! ## Loops -/

def forEach (step : σ → κ → v → Except ε Unit × σ) : List (Σ _ : κ, v) → σ → Except ε Unit × σ
  | [], s => (.ok (), s)
  | ⟨k, e⟩ :: l, s =>
    match step s k e with
    | (.error err, s') => (.error err, s')
    | (.ok (), s') => forEach step l s'

variable {step : σ → κ → v → Except ε Unit × σ}

/-- What every step keeps where its entry is as `look` shows. -/
theorem forEach_inv {P : σ → Prop} (look : κ → σ → Option v)
    (hother : ∀ s k e k', k' ≠ k → look k' (step s k e).2 = look k' s)
    (hstep : ∀ s k e, P s → look k s = some e → P (step s k e).2)
    (l : List (Σ _ : κ, v)) (hnodup : l.NodupKeys) {s : σ} (hs : P s)
    (hlook : ∀ k e, l.dlookup k = some e → look k s = some e) : P (forEach step l s).2 := by
  induction l generalizing s with
  | nil => exact hs
  | cons p l ih =>
    obtain ⟨k0, e0⟩ := p
    rw [nodupKeys_cons] at hnodup
    have h := hstep s k0 e0 hs (hlook k0 e0 (by simp))
    have hrest : ∀ k e, l.dlookup k = some e → look k (step s k0 e0).2 = some e := by
      intro k e he
      have hne : k ≠ k0 := by
        rintro rfl
        exact hnodup.1 (dlookup_isSome.mp (isSome_of_mem he))
      rw [hother s k0 e0 k hne]
      exact hlook k e (by rw [dlookup_cons_ne l (⟨k0, e0⟩ : Σ _ : κ, v) hne]; exact he)
    unfold forEach
    rcases hr : step s k0 e0 with ⟨_ | _, _⟩
    · rw [hr] at h
      exact h
    · rw [hr] at h hrest
      exact ih hnodup.2 h hrest

/-- A step on its own key, which succeeds with `post` where `good`. -/
structure Local (step : σ → κ → v → Except ε Unit × σ) (look : κ → σ → α) (good : κ → α → v → Prop)
    (post : κ → α → v → α → Prop) : Prop where
  same : ∀ s k e, good k (look k s) e → (step s k e).1 = .ok () → post k (look k s) e (look k (step s k e).2)
  other : ∀ s k e k', k' ≠ k → look k' (step s k e).2 = look k' s

variable {look : κ → σ → α} {good : κ → α → v → Prop} {post : κ → α → v → α → Prop}
  {l : List (Σ _ : κ, v)} {s : σ}

omit [DecidableEq κ] in
theorem forEach_cons (h : (step s k e).1 = .ok ()) : forEach step (⟨k, e⟩ :: l) s = forEach step l (step s k e).2 := by
  rw [forEach]
  generalize step s k e = r at h
  obtain ⟨_, _⟩ := r
  simp only at h
  subst h
  rfl

omit [DecidableEq κ] in
theorem forEach_cons_ok (h : (forEach step (⟨k, e⟩ :: l) s).1 = .ok ()) : (step s k e).1 = .ok () := by
  unfold forEach at h
  split at h
  · cases h
  · next hstep => rw [hstep]

section

variable (h : Local step look good post)
include h

theorem Local.tail_good {k0 : κ} {e0 : v}
    (hnot : k0 ∉ l.keys) (hgood : ∀ k e, dlookup k (⟨k0, e0⟩ :: l) = some e → good k (look k s) e) :
    ∀ k e, l.dlookup k = some e → good k (look k (step s k0 e0).2) e := by
  intro k e he
  have hne : k ≠ k0 := by
    rintro rfl
    exact hnot (dlookup_isSome.mp (isSome_of_mem he))
  rw [h.other s k0 e0 k hne]
  exact hgood k e (by rw [dlookup_cons_ne l (⟨k0, e0⟩ : Σ _ : κ, v) hne]; exact he)

theorem Local.succeeds
    (hok : ∀ s k e, good k (look k s) e → (step s k e).1 = .ok ()) (hnodup : l.NodupKeys)
    (hgood : ∀ k e, l.dlookup k = some e → good k (look k s) e) : (AssocMap.forEach step l s).1 = .ok () := by
  induction l generalizing s with
  | nil => rfl
  | cons p l ih =>
    obtain ⟨k0, e0⟩ := p
    rw [nodupKeys_cons] at hnodup
    rw [forEach_cons (hok s k0 e0 (hgood k0 e0 (by simp)))]
    exact ih hnodup.2 (h.tail_good hnodup.1 hgood)

theorem Local.forEach (hnodup : l.NodupKeys)
    (hgood : ∀ k e, l.dlookup k = some e → good k (look k s) e)
    (hok : (AssocMap.forEach step l s).1 = .ok ()) :
    (∀ k, l.dlookup k = none → look k (AssocMap.forEach step l s).2 = look k s) ∧
      ∀ k e, l.dlookup k = some e → post k (look k s) e (look k (AssocMap.forEach step l s).2) := by
  induction l generalizing s with
  | nil => exact ⟨fun _ _ => rfl, fun k e he => by simp at he⟩
  | cons p l ih =>
    obtain ⟨k0, e0⟩ := p
    rw [nodupKeys_cons] at hnodup
    obtain ⟨hnot, hnodup⟩ := hnodup
    have hstep := forEach_cons_ok hok
    have hsame := h.same s k0 e0 (hgood k0 e0 (by simp)) hstep
    have hother := h.other s k0 e0
    have hcons : ∀ k, k ≠ k0 → dlookup k (⟨k0, e0⟩ :: l) = l.dlookup k :=
      fun k hk => dlookup_cons_ne l (⟨k0, e0⟩ : Σ _ : κ, v) hk
    rw [forEach_cons hstep] at hok ⊢
    obtain ⟨hnone, hsome⟩ := ih hnodup (h.tail_good hnot hgood) hok
    refine ⟨fun k hk => ?_, fun k e he => ?_⟩
    · by_cases h0 : k = k0
      · subst h0
        simp at hk
      · rw [hcons k h0] at hk
        rw [hnone k hk, hother k h0]
    · by_cases h0 : k = k0
      · subst h0
        simp only [dlookup_cons_eq, some.injEq] at he
        subst he
        rw [hnone k (dlookup_eq_none.mpr hnot)]
        exact hsame
      · rw [hcons k h0] at he
        have hpost := hsome k e he
        rw [hother k h0] at hpost
        exact hpost

end

/-! ## Part of a map -/

omit [DecidableEq κ] in
theorem nodupKeys_filter (m : AssocMap κ v) (p : v → Bool) : (m.entries.filter fun s => p s.2).NodupKeys :=
  m.nodupKeys.sublist filter_sublist

theorem dlookup_filter (m : AssocMap κ v) (p : v → Bool) (k : κ) :
    (m.entries.filter fun s => p s.2).dlookup k = (m.lookup k).filter p := by
  apply ext
  intro e
  rw [← mem_def, mem_dlookup_iff (nodupKeys_filter m p), mem_filter, filter_eq_some_iff, ← mem_def,
    AList.mem_lookup_iff]

/-! ## Groups -/

/-- Collects the elements of each key into one value. -/
def collect (key : α → κ) (add : v → α → v) (new : v) (l : List α) : AssocMap κ v :=
  l.foldl (fun m a => m.insert (key a) (add ((m.lookup (key a)).getD new) a)) ∅

theorem lookup_collect_from (key : α → κ) (add : v → α → v) (new : v) (l : List α) (m : AssocMap κ v) (k : κ) :
    (l.foldl (fun m a => m.insert (key a) (add ((m.lookup (key a)).getD new) a)) m).lookup k =
      if l.filter (key · = k) = [] then m.lookup k
      else some ((l.filter (key · = k)).foldl add ((m.lookup k).getD new)) := by
  induction l generalizing m with
  | nil => simp
  | cons a l ih =>
    rw [foldl_cons, ih]
    by_cases ha : key a = k
    · rw [filter_cons_of_pos (by simpa using ha), ha, AList.lookup_insert]
      by_cases hnil : l.filter (key · = k) = []
      · simp [hnil]
      · simp [hnil]
    · rw [filter_cons_of_neg (by simpa using ha), AList.lookup_insert_ne (Ne.symm ha)]

theorem lookup_collect (key : α → κ) (add : v → α → v) (new : v) (l : List α) (k : κ) :
    (collect key add new l).lookup k =
    if l.filter (key · = k) = [] then none else some ((l.filter (key · = k)).foldl add new) := by
  unfold collect
  rw [lookup_collect_from]
  rfl

def same [DecidableEq v] (m n : AssocMap κ v) : Bool :=
  m.keys.all (fun k => m.lookup k = n.lookup k) && n.keys.all fun k => m.lookup k = n.lookup k

theorem same_of_lookup [DecidableEq v] {n : AssocMap κ v} (h : ∀ k, m.lookup k = n.lookup k) : same m n = true := by
  unfold same
  simp [h]

end AssocMap

end FullNode
