import Mathlib.Data.BitVec

/-!
# Formats that read back what they write

A format is a writer and a reader of byte strings. Sequencing keeps that: the reader of the second part may depend on
the value of the first.
-/

namespace FullNode

open List

abbrev Reader (ε α : Type) := StateT (List UInt8) (Except ε) α

namespace Reader

variable {ε α β : Type} {u : Reader ε α} {f : α → Reader ε β} {bytes rest : List UInt8}

@[simp] theorem run_pure (a : α) : (pure a : Reader ε α).run bytes = .ok (a, bytes) := rfl

variable {a : α} {x : Except ε α} {ε' : Type}

theorem run_bind_of_ok (h : u.run bytes = .ok (a, rest)) : (u >>= f).run bytes = (f a).run rest := by
  rw [StateT.run_bind, h]
  rfl

theorem run_bind_ok {b : β} :
    (u >>= f).run bytes = .ok (b, rest) ↔ ∃ a mid, u.run bytes = .ok (a, mid) ∧ (f a).run mid = .ok (b, rest) := by
  rw [StateT.run_bind]
  cases h : u.run bytes with
  | error e => simp [bind, Except.bind]
  | ok r =>
    obtain ⟨a, mid⟩ := r
    simp [bind, Except.bind]

def take (short : ε) (n : Nat) : Reader ε (List UInt8) := fun bytes =>
  if bytes.length < n then .error short else .ok (bytes.take n, bytes.drop n)

def takeExact (short : ε) (n : Nat) : Reader ε { bytes : List UInt8 // bytes.length = n } := fun bytes =>
  if h : bytes.length < n then .error short
  else .ok (⟨bytes.take n, by rw [List.length_take]; omega⟩, bytes.drop n)

theorem takeExact_run (short : ε) {n : Nat} {a : List UInt8} (h : a.length = n) (rest : List UInt8) :
    (takeExact short n).run (a ++ rest) = .ok (⟨a, h⟩, rest) := by
  subst h
  unfold takeExact StateT.run
  simp only
  rw [dif_neg (by rw [length_append]; omega)]
  simp

def lift (x : Except ε α) : Reader ε α := fun bytes => do
  let a ← x
  return (a, bytes)

def mapError {ε' : Type} (f : ε → ε') (u : Reader ε α) : Reader ε' α := fun bytes => (u.run bytes).mapError f

/-- Reads `n` values one after the other. -/
def replicate (u : Reader ε α) : Nat → Reader ε (List α)
  | 0 => pure []
  | n + 1 => do
    let a ← u
    let as ← replicate u n
    return a :: as

theorem lift_run_of_ok (h : x = .ok a) (bytes : List UInt8) : (lift x).run bytes = .ok (a, bytes) := by
  subst h
  rfl

theorem mapError_run_of_ok (f : ε → ε') (h : u.run bytes = .ok (a, rest)) :
    (u.mapError f).run bytes = .ok (a, rest) := by
  have hrun : (u.mapError f).run bytes = (u.run bytes).mapError f := rfl
  rw [hrun, h]
  rfl

/-! ## Any bytes -/

/-- On any bytes the reader ends with such an error or value. -/
def Ends (thrown : ε → Prop) (post : α → Prop) (u : Reader ε α) : Prop :=
  ∀ bytes, (∀ e, u.run bytes = .error e → thrown e) ∧ ∀ a rest, u.run bytes = .ok (a, rest) → post a

variable {thrown : ε → Prop} {post : α → Prop}

theorem Ends.pure (h : post a) : Ends thrown post (Pure.pure a : Reader ε α) := by
  intro bytes
  refine ⟨nofun, ?_⟩
  intro a' rest hrun
  rw [run_pure] at hrun
  obtain ⟨rfl, -⟩ := Prod.mk.inj (Except.ok.inj hrun)
  exact h

theorem Ends.bind {post' : β → Prop} (h : Ends thrown post u) (h' : ∀ a, post a → Ends thrown post' (f a)) :
    Ends thrown post' (u >>= f) := by
  intro bytes
  obtain ⟨herror, hok⟩ := h bytes
  cases hrun : u.run bytes with
  | error e =>
    have hstop : (u >>= f).run bytes = .error e := by
      rw [StateT.run_bind, hrun]
      rfl
    rw [hstop]
    refine ⟨?_, nofun⟩
    intro e' he
    rw [← Except.error.inj he]
    exact herror e hrun
  | ok r =>
    rw [run_bind_of_ok hrun]
    exact h' r.1 (hok r.1 r.2 hrun) r.2

theorem Ends.lift (herror : ∀ e, x = .error e → thrown e) (hok : ∀ a, x = .ok a → post a) :
    Ends thrown post (Reader.lift x) := by
  intro bytes
  cases x with
  | error e =>
    refine ⟨?_, nofun⟩
    intro e' hrun
    cases hrun
    exact herror e rfl
  | ok a =>
    refine ⟨nofun, ?_⟩
    intro a' rest hrun
    cases hrun
    exact hok a rfl

theorem Ends.any (u : Reader ε α) : Ends (fun _ => True) (fun _ => True) u :=
  fun _ => ⟨fun _ _ => trivial, fun _ _ _ => trivial⟩

theorem Ends.mapError {thrown' : ε' → Prop} {g : ε → ε'} (h : Ends thrown post u) (hg : ∀ e, thrown e → thrown' (g e)) :
    Ends thrown' post (u.mapError g) := by
  intro bytes
  obtain ⟨herror, hok⟩ := h bytes
  have hrun : (u.mapError g).run bytes = (u.run bytes).mapError g := rfl
  rw [hrun]
  cases hu : u.run bytes with
  | error e =>
    refine ⟨?_, nofun⟩
    intro e' he
    rw [← Except.error.inj he]
    exact hg e (herror e hu)
  | ok r =>
    refine ⟨nofun, ?_⟩
    intro a rest ha
    cases ha
    exact hok a rest hu

end Reader

/-- The reader takes what the writer wrote, and nothing else. -/
structure IsCanonical {ε α : Type} (ser : α → List UInt8) (unser : Reader ε α) (valid : α → Prop) : Prop where
  unser_ser : ∀ {a}, valid a → ∀ rest, unser.run (ser a ++ rest) = .ok (a, rest)
  ser_unser : ∀ {bytes a rest}, unser.run bytes = .ok (a, rest) → valid a ∧ bytes = ser a ++ rest

namespace IsCanonical

variable {ε α β : Type} {ser : α → List UInt8} {unser : Reader ε α} {valid : α → Prop}

theorem congr {ser' : α → List UInt8} {valid' : α → Prop} (h : IsCanonical ser unser valid)
    (hvalid : ∀ a, valid a ↔ valid' a) (hser : ∀ a, valid a → ser a = ser' a) : IsCanonical ser' unser valid' := by
  constructor
  · intro a ha rest
    rw [← hvalid] at ha
    rw [← hser a ha]
    exact h.unser_ser ha rest
  · intro bytes a rest hrun
    obtain ⟨ha, heq⟩ := h.ser_unser hrun
    rw [← hser a ha, ← hvalid]
    exact ⟨ha, heq⟩

/-! ## Sequences -/

theorem done (b : β) : IsCanonical (fun _ => []) (pure b : Reader ε β) (· = b) := by
  constructor
  · rintro a rfl rest
    rfl
  · intro bytes a rest hrun
    rw [Reader.run_pure] at hrun
    cases hrun
    exact ⟨rfl, rfl⟩

/-- What follows may depend on the first part. -/
theorem bind {ser' : α → β → List UInt8} {unser' : α → Reader ε β} {valid' : α → β → Prop} (first : β → α)
    (h : IsCanonical ser unser valid) (h' : ∀ a, IsCanonical (ser' a) (unser' a) (valid' a))
    (hfirst : ∀ a b, valid a → valid' a b → first b = a) :
    IsCanonical (fun b => ser (first b) ++ ser' (first b) b) (unser >>= unser')
      (fun b => valid (first b) ∧ valid' (first b) b) := by
  constructor
  · rintro b ⟨ha, hb⟩ rest
    rw [append_assoc, Reader.run_bind_of_ok (h.unser_ser ha _)]
    exact (h' _).unser_ser hb rest
  · intro bytes b rest hrun
    obtain ⟨a, _, hleft, hright⟩ := Reader.run_bind_ok.mp hrun
    obtain ⟨ha, rfl⟩ := h.ser_unser hleft
    obtain ⟨hb, rfl⟩ := (h' a).ser_unser hright
    rw [hfirst a b ha hb]
    exact ⟨⟨ha, hb⟩, (append_assoc _ _ _).symm⟩

theorem refuse {c : α → Prop} [DecidablePred c] (h : IsCanonical ser unser valid) (e : ε) :
    IsCanonical ser (unser >>= fun a => if c a then throw e else pure a) (fun a => valid a ∧ ¬ c a) := by
  constructor
  · rintro a ⟨ha, hc⟩ rest
    rw [Reader.run_bind_of_ok (h.unser_ser ha rest), if_neg hc]
    rfl
  · intro bytes a rest hrun
    obtain ⟨_, _, hleft, hright⟩ := Reader.run_bind_ok.mp hrun
    split at hright
    · cases hright
    · next hc =>
      cases hright
      obtain ⟨ha, heq⟩ := h.ser_unser hleft
      exact ⟨⟨ha, hc⟩, heq⟩

theorem take (short : ε) (n : Nat) : IsCanonical (ε := ε) id (Reader.take short n) (·.length = n) := by
  constructor
  · rintro a rfl rest
    simp [Reader.take, StateT.run]
  · intro bytes a rest hrun
    unfold Reader.take StateT.run at hrun
    simp only at hrun
    split at hrun
    · cases hrun
    · next hlength =>
      cases hrun
      refine ⟨?_, (take_append_drop n bytes).symm⟩
      rw [length_take]
      omega

theorem replicate (h : IsCanonical ser unser valid) (n : Nat) :
    IsCanonical (fun as => as.flatMap ser) (Reader.replicate unser n)
      (fun as => as.length = n ∧ ∀ a ∈ as, valid a) := by
  induction n with
  | zero =>
    refine (done []).congr ?_ ?_
    · intro as
      rw [length_eq_zero_iff]
      constructor
      · rintro rfl
        simp
      · exact And.left
    · rintro as rfl
      rfl
  | succ n ih =>
    constructor
    · rintro as ⟨hlength, hall⟩ rest
      obtain ⟨a, as, rfl⟩ := exists_cons_of_length_eq_add_one hlength
      unfold Reader.replicate
      rw [flatMap_cons, append_assoc, Reader.run_bind_of_ok (h.unser_ser (hall a mem_cons_self) _)]
      have hrest := ih.unser_ser ⟨Nat.succ.inj hlength, fun b hb => hall b (mem_cons_of_mem _ hb)⟩ rest
      rw [Reader.run_bind_of_ok hrest]
      rfl
    · intro bytes as rest hrun
      unfold Reader.replicate at hrun
      obtain ⟨a, _, hleft, hright⟩ := Reader.run_bind_ok.mp hrun
      obtain ⟨_, _, hmid, hdone⟩ := Reader.run_bind_ok.mp hright
      cases hdone
      obtain ⟨ha, rfl⟩ := h.ser_unser hleft
      obtain ⟨⟨rfl, hall⟩, rfl⟩ := ih.ser_unser hmid
      refine ⟨⟨rfl, ?_⟩, by rw [flatMap_cons, append_assoc]⟩
      intro b hb
      rcases mem_cons.mp hb with rfl | hb
      · exact ha
      · exact hall b hb

end IsCanonical

/-! ## Little-endian numbers -/

def leBytes : Nat → Nat → List UInt8
  | 0, _ => []
  | k + 1, n => UInt8.ofNat (n % 256) :: leBytes k (n / 256)

def leValue : List UInt8 → Nat
  | [] => 0
  | b :: bytes => b.toNat + 256 * leValue bytes

@[simp] theorem leBytes_length (k n : Nat) : (leBytes k n).length = k := by
  induction k generalizing n with
  | zero => rfl
  | succ k ih => rw [leBytes, length_cons, ih]

theorem leBytes_succ_last (k n : Nat) : leBytes (k + 1) n = leBytes k n ++ [UInt8.ofNat (n / 256 ^ k % 256)] := by
  induction k generalizing n with
  | zero => simp [leBytes]
  | succ k ih =>
    rw [leBytes, ih, leBytes, cons_append, Nat.div_div_eq_div_mul, Nat.pow_succ, Nat.mul_comm 256]

theorem leValue_leBytes {k n : Nat} (h : n < 256 ^ k) : leValue (leBytes k n) = n := by
  induction k generalizing n with
  | zero =>
    rw [Nat.pow_zero] at h
    rw [leBytes, leValue]
    omega
  | succ k ih =>
    have hdiv : n / 256 < 256 ^ k := by
      rw [Nat.div_lt_iff_lt_mul (by omega), ← Nat.pow_succ]
      exact h
    rw [leBytes, leValue, ih hdiv, UInt8.toNat_ofNat', Nat.mod_eq_of_lt (by omega : n % 256 < 2 ^ 8)]
    omega

theorem leValue_lt (bytes : List UInt8) : leValue bytes < 256 ^ bytes.length := by
  induction bytes with
  | nil => simp [leValue]
  | cons b bytes ih =>
    have hb := b.toNat_lt
    rw [leValue, length_cons, Nat.pow_succ]
    omega

theorem leValue_append (a b : List UInt8) : leValue (a ++ b) = leValue a + leValue b * 256 ^ a.length := by
  induction a with
  | nil => simp [leValue]
  | cons x a ih =>
    rw [cons_append, leValue, ih, leValue, length_cons, Nat.pow_succ, Nat.mul_add, ← Nat.add_assoc,
      Nat.mul_comm 256 (leValue b * _), Nat.mul_assoc]

theorem leValue_last (init : List UInt8) (b : UInt8) :
    leValue (init ++ [b]) = leValue init + b.toNat * 256 ^ init.length := by
  rw [leValue_append]
  simp [leValue]

theorem leBytes_leValue (bytes : List UInt8) : leBytes bytes.length (leValue bytes) = bytes := by
  induction bytes with
  | nil => rfl
  | cons b bytes ih =>
    have hb := b.toNat_lt
    rw [length_cons, leBytes, leValue, show (b.toNat + 256 * leValue bytes) % 256 = b.toNat by omega,
      show (b.toNat + 256 * leValue bytes) / 256 = leValue bytes by omega, ih, UInt8.ofNat_toNat]

/-- A number of `k` bytes. -/
def Reader.le {ε : Type} (short : ε) (k : Nat) : Reader ε Nat := do
  let bytes ← Reader.take short k
  return leValue bytes

theorem IsCanonical.le {ε : Type} (short : ε) (k : Nat) :
    IsCanonical (leBytes k) (Reader.le short k) (· < 256 ^ k) := by
  unfold Reader.le
  refine ((IsCanonical.take short k).bind (leBytes k) (fun bytes => done (leValue bytes)) ?_).congr ?_ ?_
  · rintro bytes _ rfl rfl
    exact leBytes_leValue bytes
  · intro n
    rw [leBytes_length]
    constructor
    · rintro ⟨-, hn⟩
      rw [hn]
      simpa using leValue_lt (leBytes k n)
    · intro hn
      exact ⟨rfl, (leValue_leBytes hn).symm⟩
  · intro n _
    exact append_nil _

end FullNode
