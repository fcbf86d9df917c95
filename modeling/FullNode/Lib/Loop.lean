import FullNode.Basic
import FullNode.Lib.Outcome

/-!
# Loops

A loop runs its step until the step says it is done. With an invariant and a measure that goes down,
it ends, and what the last step establishes holds.
-/

namespace FullNode

open List

inductive Next (σ : Type) where
  | done (s : σ)
  | again (s : σ)

variable {σ : Type} {step : σ → Checked (Next σ)}

def loop (step : σ → Checked (Next σ)) : Nat → σ → Checked σ
  | 0, _ => .error .endless
  | fuel + 1, s => do
    match ← step s with
    | .done s => return s
    | .again s => loop step fuel s

/-- `t` is a state of the loop from `s`, after rounds from `P`. -/
inductive Visits (P : σ → Prop) (step : σ → Checked (Next σ)) (s : σ) : σ → Prop where
  | start : Visits P step s s
  | again {t u : σ} : Visits P step s t → P t → step t = .ok (.again u) → Visits P step s u

variable {I : σ → Prop} {s : σ} {bad : Fault → Prop} {α : Type} {P : σ → Prop} {Q : σ → Prop} {fuel : Nat}

theorem Visits.inv {t : σ} (h : Visits P step s t) (hs : I s)
    (hstep : ∀ t u, I t → P t → step t = .ok (.again u) → I u) : I t := by
  induction h with
  | start => exact hs
  | again _ hP hu ih => exact hstep _ _ ih hP hu

theorem loop_spec (μ : σ → Nat)
    (hstep : ∀ s, I s → (∃ s', step s = .ok (.done s') ∧ Q s') ∨ ∃ s', step s = .ok (.again s') ∧ I s' ∧ μ s' < μ s)
    (hs : I s) (hfuel : μ s < fuel) : ∃ s', loop step fuel s = .ok s' ∧ Q s' := by
  induction fuel generalizing s with
  | zero => omega
  | succ fuel ih =>
    unfold loop
    rcases hstep s hs with ⟨s', hdone, hQ⟩ | ⟨s', hagain, hI, _⟩
    · exact ⟨s', by rw [hdone]; rfl, hQ⟩
    · rw [hagain]
      exact ih hI (by omega)

def Next.Ends (done again : σ → Prop) : Next σ → Prop
  | .done s => done s
  | .again s => again s

theorem loop_ensures (μ : σ → Nat)
    (hstep : ∀ s, I s → Ensures bad (Next.Ends Q fun s' => I s' ∧ μ s' < μ s) (step s))
    (hs : I s) (hfuel : μ s < fuel) : Ensures bad Q (loop step fuel s) := by
  induction fuel generalizing s with
  | zero => omega
  | succ fuel ih =>
    unfold loop
    refine (hstep s hs).bind fun next hnext => ?_
    cases next with
    | done s' => exact hnext
    | again s' => exact ih hnext.1 (by have := hnext.2; omega)

variable {f : σ → α → Checked σ} {l : List α}

/-- A loop over a list. The invariant says which part of it is done. -/
theorem foldlM_split {I : List α → σ → Prop}
    (hstep : ∀ done x rest s, l = done ++ x :: rest → I done s → ∃ s', f s x = .ok s' ∧ I (done ++ [x]) s')
    (hs : I [] s) : ∃ s', l.foldlM f s = .ok s' ∧ I l s' := by
  suffices h : ∀ rest done s, l = done ++ rest → I done s →
      ∃ s', rest.foldlM f s = .ok s' ∧ I (done ++ rest) s' from h l [] s rfl hs
  intro rest
  induction rest with
  | nil =>
    intro done s _ hs
    exact ⟨s, rfl, by rwa [append_nil]⟩
  | cons x rest ih =>
    intro done s hl hs
    obtain ⟨s1, hx, h1⟩ := hstep done x rest s hl hs
    obtain ⟨s', hrest, h'⟩ := ih (done ++ [x]) s1 (by rw [append_assoc]; exact hl) h1
    refine ⟨s', by rw [foldlM_cons, hx, ok_bind, hrest], ?_⟩
    rwa [append_assoc] at h'

theorem foldlM_rule {I : List α → σ → Prop}
    (hstep : ∀ done x s, x ∈ l → I done s → ∃ s', f s x = .ok s' ∧ I (done ++ [x]) s') (hs : I [] s) :
    ∃ s', l.foldlM f s = .ok s' ∧ I l s' := by
  apply foldlM_split _ hs
  intro done x rest s hl
  exact hstep done x s (by rw [hl]; exact mem_append_right _ mem_cons_self)

theorem foldlM_range_ensures {f : σ → Nat → Checked σ} {I : Nat → σ → Prop} {n : Nat}
    (hstep : ∀ i < n, ∀ s, I i s → Ensures bad (I (i + 1)) (f s i)) (hs : I 0 s) :
    Ensures bad (I n) ((range n).foldlM f s) := by
  induction n with
  | zero => exact hs
  | succ n ih =>
    rw [range_succ, foldlM_append]
    refine (ih fun i hi => hstep i (by omega)).bind fun s' hs' => ?_
    rw [foldlM_cons]
    exact (hstep n (by omega) s' hs').bind fun s'' hs'' => hs''

theorem foldlM_keeps {s' : σ}
    (hstep : ∀ s x s', f s x = .ok s' → P s → P s') (h : l.foldlM f s = .ok s') (hs : P s) : P s' := by
  induction l generalizing s with
  | nil =>
    cases h
    exact hs
  | cons x l ih =>
    obtain ⟨s1, hx, h⟩ := bind_ok.mp h
    exact ih h (hstep s x s1 hx hs)

end FullNode
