import Mathlib.Data.BitVec

/-!
# Words and faults

The fixed-width words of the node are bit vectors. A function that can stop
the program returns `Except Fault`.
-/

namespace FullNode

abbrev Uint32 := BitVec 32
abbrev Uint64 := BitVec 64
abbrev Uint256 := BitVec 256

instance : LawfulBEq Uint256 := inferInstance

inductive Fault where
  | divisionByZero
  | assertion
  /-- `std::logic_error`. -/
  | logicError (what : String)
  /-- `std::runtime_error`. -/
  | runtimeError (what : String)
  /-- An iterator that points at nothing is read. -/
  | badIterator
  /-- A loop does not end. -/
  | endless
  /-- A signed number leaves its type. -/
  | overflow
  /-- A shift by the width of the type, or by more. -/
  | badShift
  deriving DecidableEq

abbrev Checked (α : Type) := Except Fault α

/-- `assert(cond)`. -/
def check (cond : Bool) : Checked Unit := if cond then .ok () else .error .assertion

@[simp] theorem check_true : check true = .ok () := rfl
@[simp] theorem check_false : check false = .error .assertion := rfl

theorem check_ok {cond : Bool} {u : Unit} : check cond = .ok u ↔ cond = true := by
  cases cond <;> simp

@[simp] theorem ok_bind {ε α β : Type} (a : α) (f : α → Except ε β) : ((.ok a : Except ε α) >>= f) = f a := rfl

theorem bind_ok {ε α β : Type} {x : Except ε α} {f : α → Except ε β} {r : β} :
    (x >>= f) = .ok r ↔ ∃ a, x = .ok a ∧ f a = .ok r := by
  cases x with
  | error e | ok a => simp [bind, Except.bind]

end FullNode
