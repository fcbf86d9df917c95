import Mathlib.Data.List.Basic
import Mathlib.Tactic.Ring

/-!
# Marks of the last generations

Keys are inserted in generations of `E` keys. An insertion marks the positions of its key with the number of its
generation, from 1 to `N`, and takes the place of older marks.
-/

namespace FullNode.Generations

variable {P K : Type}

structure State (P : Type) where
  /-- The generation of a position, zero when there is none. -/
  mark : P → Nat
  gen : Nat
  count : Nat

def next (N g : Nat) : Nat := if g + 1 = N + 1 then 1 else g + 1

def wipe (g : Nat) (mark : P → Nat) : P → Nat := fun p => if mark p = g then 0 else mark p

def advance (N : Nat) (s : State P) : State P := ⟨wipe (next N s.gen) s.mark, next N s.gen, 0⟩

def write [DecidableEq P] (g : Nat) (ps : List P) (mark : P → Nat) : P → Nat := fun p => if p ∈ ps then g else mark p

def insert [DecidableEq P] (N E : Nat) (positions : K → List P) (s : State P) (k : K) : State P :=
  let s := if s.count = E then advance N s else s
  ⟨write s.gen (positions k) s.mark, s.gen, s.count + 1⟩

def empty : State P := ⟨fun _ => 0, 1, 0⟩

/-! ## Ages -/

def age (N g m : Nat) : Nat := (g + N - m) % N

/-- How many generations ago the key at place `i` came. -/
def ageAt (E c i : Nat) : Nat := if i < c then 0 else (i - c) / E + 1

theorem age_self {N g : Nat} : age N g g = 0 := by
  rw [age, Nat.add_sub_cancel_left, Nat.mod_self]

theorem age_of_lt {N g m : Nat} (h : g < m) (hm : m ≤ N) : age N g m = g + N - m := by
  rw [age, Nat.mod_eq_of_lt (by omega)]

theorem age_of_ge {N g m : Nat} (h : m ≤ g) (hg : g < m + N) : age N g m = g - m := by
  rw [age, show g + N - m = g - m + N by omega, Nat.add_mod_right, Nat.mod_eq_of_lt (by omega)]

theorem age_next {N g m : Nat} (hg : 1 ≤ g ∧ g ≤ N) (hm : 1 ≤ m ∧ m ≤ N) (hage : age N g m + 1 < N) :
    m ≠ next N g ∧ age N (next N g) m = age N g m + 1 := by
  rcases Nat.lt_or_ge g m with hlt | hge
  · rw [age_of_lt hlt hm.2] at hage ⊢
    rw [next, if_neg (by omega), age_of_lt (by omega) hm.2]
    omega
  · rw [age_of_ge hge (by omega)] at hage ⊢
    by_cases hlast : g + 1 = N + 1
    · rw [next, if_pos hlast, age_of_lt (by omega) hm.2]
      omega
    · rw [next, if_neg hlast, age_of_ge (by omega) (by omega)]
      omega

theorem ageAt_advance {E i : Nat} (hE : 0 < E) : ageAt E 0 i = ageAt E E i + 1 := by
  unfold ageAt
  rw [if_neg (Nat.not_lt_zero _), Nat.sub_zero]
  split
  · next h => rw [Nat.div_eq_of_lt h]
  · next h => rw [Nat.div_eq_sub_div hE (not_lt.mp h)]

theorem ageAt_succ (E c i : Nat) : ageAt E (c + 1) (i + 1) = ageAt E c i := by
  unfold ageAt
  simp only [Nat.add_lt_add_iff_right, Nat.add_sub_add_right]

theorem ageAt_le {N E c i : Nat} (hi : i < c + (N - 1) * E) : ageAt E c i ≤ N - 1 := by
  unfold ageAt
  split
  · exact Nat.zero_le _
  · have hlt : (i - c) / E < N - 1 := Nat.div_lt_of_lt_mul (by rw [Nat.mul_comm]; omega)
    omega

/-! ## The invariant -/

/-- Every key not too old has a mark as old as itself or newer. -/
structure Remembers (N E : Nat) (positions : K → List P) (keys : List K) (s : State P) : Prop where
  gen : 1 ≤ s.gen ∧ s.gen ≤ N
  count : s.count ≤ E
  marked : ∀ i k, keys[i]? = some k → i < s.count + (N - 1) * E → ∀ p ∈ positions k,
    (1 ≤ s.mark p ∧ s.mark p ≤ N) ∧ age N s.gen (s.mark p) ≤ ageAt E s.count i

variable {N E : Nat} {positions : K → List P} {keys : List K} {s : State P}

theorem Remembers.empty (hN : 1 ≤ N) : Remembers N E positions [] (empty : State P) :=
  ⟨⟨le_rfl, hN⟩, Nat.zero_le _, fun i k h => by simp at h⟩

variable (h : Remembers N E positions keys s)
include h

theorem Remembers.advance (hE : 0 < E) (hfull : s.count = E) :
    Remembers N E positions keys (advance N s) := by
  have hgen := h.gen
  refine ⟨?_, Nat.zero_le _, ?_⟩
  · unfold Generations.advance next
    dsimp only
    split <;> omega
  · intro i k hk hi p hp
    simp only [Generations.advance, Nat.zero_add] at hi ⊢
    obtain ⟨hmark, hage⟩ := h.marked i k hk (by omega) p hp
    rw [hfull] at hage
    have hyoung : ageAt E E i + 1 ≤ N - 1 := by
      rw [← ageAt_advance hE]
      exact ageAt_le (by omega)
    obtain ⟨hkeep, hnext⟩ := age_next hgen hmark (by omega)
    rw [wipe, if_neg hkeep, hnext, ageAt_advance hE]
    exact ⟨hmark, Nat.succ_le_succ hage⟩

theorem Remembers.write [DecidableEq P] (hroom : s.count < E) (k : K) :
    Remembers N E positions (k :: keys) ⟨write s.gen (positions k) s.mark, s.gen, s.count + 1⟩ := by
  refine ⟨h.gen, hroom, ?_⟩
  intro i k' hk' hi p hp
  simp only at hi ⊢
  unfold Generations.write
  split
  · next hmem =>
    rw [age_self]
    exact ⟨h.gen, Nat.zero_le _⟩
  · next hmem =>
    cases i with
    | zero =>
      obtain rfl : k = k' := by simpa using hk'
      exact absurd hp hmem
    | succ i =>
      rw [List.getElem?_cons_succ] at hk'
      rw [ageAt_succ]
      exact h.marked i k' hk' (by omega) p hp

theorem Remembers.insert [DecidableEq P] (hE : 0 < E) (k : K) :
    Remembers N E positions (k :: keys) (insert N E positions s k) := by
  unfold Generations.insert
  split
  · next hfull => exact (h.advance hE hfull).write hE k
  · next hroom => exact h.write (by have := h.count; omega) k

theorem Remembers.mark_ne_zero {k : K} (hk : k ∈ keys.take ((N - 1) * E)) {p : P}
    (hp : p ∈ positions k) : s.mark p ≠ 0 := by
  obtain ⟨i, hi⟩ := List.getElem?_of_mem hk
  rw [List.getElem?_take] at hi
  split at hi
  · next hlt =>
    have hmark := (h.marked i k hi (by omega) p hp).1
    omega
  · cases hi

omit h

end FullNode.Generations
