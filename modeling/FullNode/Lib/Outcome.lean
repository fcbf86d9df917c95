import Mathlib.Tactic.Common

/-!
# What a fallible computation can end in

`Ensures bad post x` says how `x` may end: in a value with `post`, or in an error that `bad`
admits. `Relaxes x y` compares two computations: whatever `y` returns, `x` returns too.
-/

namespace FullNode

variable {ε α β : Type}

/-- A value with `post`, or an error that `bad` admits. -/
def Ensures (bad : ε → Prop) (post : α → Prop) : Except ε α → Prop
  | .ok a => post a
  | .error e => bad e

namespace Ensures

variable {bad : ε → Prop} {post post' : α → Prop} {x : Except ε α}

@[simp] theorem ok_iff {a : α} : Ensures bad post (.ok a) ↔ post a := Iff.rfl

theorem mono (h : Ensures bad post x) (himp : ∀ a, post a → post' a) : Ensures bad post' x := by
  cases x with
  | ok a => exact himp a h
  | error e => exact h

theorem weaken {bad' : ε → Prop} (h : Ensures bad post x) (himp : ∀ e, bad e → bad' e) : Ensures bad' post x := by
  cases x with
  | ok a => exact h
  | error e => exact himp e h

theorem bind {f : α → Except ε β} {post' : β → Prop} (hx : Ensures bad post x)
    (hf : ∀ a, post a → Ensures bad post' (f a)) : Ensures bad post' (x >>= f) := by
  cases x with
  | ok a => exact hf a hx
  | error e => exact hx

end Ensures

def Relaxes (x y : Except ε α) : Prop := ∀ a, y = .ok a → x = .ok a

namespace Relaxes

variable {x y z : Except ε α} {f g : α → Except ε β}

theorem refl (x : Except ε α) : Relaxes x x := fun _ h => h

theorem error (e : ε) : Relaxes x (.error e) := by
  intro a h
  cases h

theorem bind (hx : Relaxes x y) (hf : ∀ a, Relaxes (f a) (g a)) : Relaxes (x >>= f) (y >>= g) := by
  cases y with
  | error e => exact error e
  | ok a =>
    rw [hx a rfl]
    exact hf a

theorem bind_right (hf : ∀ a, Relaxes (f a) (g a)) : Relaxes (x >>= f) (x >>= g) := bind (refl x) hf

theorem ite {c : Prop} [Decidable c] {x' y' : Except ε α} (hx : c → Relaxes x y)
    (hx' : ¬ c → Relaxes x' y') : Relaxes (if c then x else x') (if c then y else y') := by
  split
  · next h => exact hx h
  · next h => exact hx' h

variable {u : Except ε Unit}

theorem skip : Relaxes (.ok ()) u := by
  rintro ⟨⟩ _
  rfl

theorem gate {c c' : Prop} [Decidable c] [Decidable c'] {u' : Except ε Unit} (hc : c → c') (hu : Relaxes u u') :
    Relaxes (if c then u else .ok ()) (if c' then u' else .ok ()) := by
  split
  · next h =>
    rw [if_pos (hc h)]
    exact hu
  · exact skip

end Relaxes

end FullNode
