import FullNode.Basic
import Mathlib.Data.List.TakeWhile

/-!
# Mempool statistics

`CStats` keeps samples of the pool, each with the seconds since the first one. A query returns the samples between two
times.
-/

namespace FullNode.Stats

open List

/-! ## The code -/

/-- `GetTime()`, an `int64_t` that is not negative. -/
abbrev Seconds := Fin (2 ^ 63)

structure CStatsMempoolSample where
  timeDelta : Uint32
  txCount : Int
  dynMemUsage : Int
  minFeePerK : Int
  deriving DecidableEq

def sizeofSample : Nat := 32

def SAMPLE_MIN_DELTA_IN_SEC : Nat := 2
def CLEANUP_SAMPLES_THRESHOLD : Nat := 100

/-- `capacity` is the one of the vector of samples. -/
structure CStats where
  startTime : Seconds := 0
  samples : List CStatsMempoolSample := []
  capacity : Nat := 0
  cleanupCounter : Nat := 0
  maxStatsMemory : Uint64 := 0
  enabled : Bool := false
  deriving DecidableEq

def mallocUsage (alloc : Nat) : Nat := if alloc = 0 then 0 else (alloc + 31) / 16 * 16

def dynamicUsage (capacity : Nat) : Nat := mallocUsage (capacity * sizeofSample)

/-- The difference is one of `size_t`. -/
def itemsToRemove (maxStatsMemory : Uint64) (size : Nat) : Nat :=
  let memUsage := dynamicUsage size
  let items := (BitVec.ofNat 64 memUsage - maxStatsMemory + BitVec.ofNat 64 sizeofSample - 1).toNat / sizeofSample
  if size ≤ items then size - 1 else items

def removedBy (s : CStats) : Nat :=
  if s.cleanupCounter ≥ CLEANUP_SAMPLES_THRESHOLD ∧ dynamicUsage s.capacity > s.maxStatsMemory.toNat ∧
    s.samples.length > 1 then
    itemsToRemove s.maxStatsMemory s.samples.length
  else 0

def cleanup (s : CStats) : CStats :=
  if s.cleanupCounter ≥ CLEANUP_SAMPLES_THRESHOLD then
    let samples := s.samples.drop (removedBy s)
    { s with samples, capacity := samples.length, cleanupCounter := 0 }
  else s

def tooSoon (s : CStats) (now : Seconds) : Bool :=
  s.samples.getLast?.any fun back => s.startTime.val + back.timeDelta.toNat + SAMPLE_MIN_DELTA_IN_SEC ≥ now.val

def started (s : CStats) (now : Seconds) : CStats := if s.startTime = 0 then { s with startTime := now } else s

def sampleAt (s : CStats) (now : Seconds) (txCount dynUsage currentMinRelayFee : Int) : CStatsMempoolSample where
  timeDelta := BitVec.ofInt 32 (now.val - s.startTime.val)
  txCount := txCount
  dynMemUsage := dynUsage
  minFeePerK := currentMinRelayFee

def pushBack (grow : Nat → Nat) (s : CStats) (sample : CStatsMempoolSample) : CStats :=
  { s with
    samples := s.samples ++ [sample]
    capacity := if s.samples.length = s.capacity then grow s.capacity else s.capacity
    cleanupCounter := s.cleanupCounter + 1 }

def addMempoolSample (grow : Nat → Nat) (s : CStats) (now : Seconds)
    (txCount dynUsage currentMinRelayFee : Int) : CStats :=
  if !s.enabled then s
  else
    let s := started s now
    if tooSoon s now then s else cleanup (pushBack grow s (sampleAt s now txCount dynUsage currentMinRelayFee))

def setMaxMemoryUsageTarget (s : CStats) (maxMem : Uint64) : CStats :=
  { s with enabled := maxMem.toNat > 0, maxStatsMemory := maxMem }

def sampleTime (s : CStats) (sample : CStatsMempoolSample) : Nat := s.startTime.val + sample.timeDelta.toNat

/-- The loop from `it` on, to the first and last position. -/
def findRange (s : CStats) (fromTime toTime : Nat) : List CStatsMempoolSample → Int → Int → Int → Bool → Int × Int
  | [], _, fromSample, toSample, _ => (fromSample, toSample)
  | sample :: samples, it, fromSample, toSample, fromSet =>
    if sampleTime s sample ≥ fromTime ∧ ¬fromSet then findRange s fromTime toTime samples (it + 1) it toSample true
    else if sampleTime s sample > toTime then (fromSample, it - 1)
    else findRange s fromTime toTime samples (it + 1) fromSample toSample fromSet

def sampleAtPosition (s : CStats) (position : Int) : Checked CStatsMempoolSample :=
  match position with
  | .ofNat i =>
    match s.samples[i]? with
    | some sample => .ok sample
    | none => .error .badIterator
  | .negSucc _ => .error .badIterator

def copyRange (s : CStats) (first past : Int) : Checked (List CStatsMempoolSample) :=
  if 0 ≤ first ∧ first ≤ past ∧ past ≤ s.samples.length then .ok ((s.samples.take past.toNat).drop first.toNat)
  else .error .badIterator

def mempoolGetValuesInRange (s : CStats) (fromTime toTime : Nat) : Checked (List CStatsMempoolSample × Nat × Nat) :=
  if !s.enabled then .ok ([], fromTime, toTime)
  else
    match s.samples.head?, s.samples.getLast? with
    | some front, some back =>
      if ¬(fromTime = 0 ∧ toTime = 0) ∧ (fromTime > sampleTime s front ∨ toTime < sampleTime s back) then do
        let (fromSample, toSample) := findRange s fromTime toTime s.samples 0 0 (s.samples.length - 1) false
        let subset ← copyRange s fromSample (toSample + 1)
        let first ← sampleAtPosition s fromSample
        let last ← sampleAtPosition s toSample
        return (subset, sampleTime s first, sampleTime s last)
      else return (s.samples, sampleTime s front, sampleTime s back)
    | _, _ => .ok (s.samples, fromTime, toTime)

inductive Event where
  | addMempoolSample (now : Seconds) (txCount dynUsage currentMinRelayFee : Int)
  | setMaxMemoryUsageTarget (maxMem : Uint64)

def step (grow : Nat → Nat) (s : CStats) : Event → CStats
  | .addMempoolSample now txCount dynUsage fee => addMempoolSample grow s now txCount dynUsage fee
  | .setMaxMemoryUsageTarget maxMem => setMaxMemoryUsageTarget s maxMem

def run (grow : Nat → Nat) (events : List Event) : CStats := events.foldl (step grow) {}

/-! ## What the samples should be -/

def Increasing (samples : List CStatsMempoolSample) : Prop :=
  samples.Pairwise fun a b => a.timeDelta.toNat < b.timeDelta.toNat

instance (samples : List CStatsMempoolSample) : Decidable (Increasing samples) :=
  inferInstanceAs (Decidable (List.Pairwise _ _))

/-- At most one is added. The oldest may go, unless all fit. -/
def Kept (s s' : CStats) : Prop :=
  ∃ added removed, s'.samples = (s.samples ++ added).drop removed ∧ added.length ≤ 1 ∧
    (removed ≠ 0 → removed < (s.samples ++ added).length) ∧
    (dynamicUsage (s.samples ++ added).length ≤ s.maxStatsMemory.toNat → removed = 0)

/-- What is added is less than 2^32 seconds younger than the start. -/
def Timely (s : CStats) : Event → Prop
  | .addMempoolSample now _ _ _ =>
    s.enabled = true → tooSoon (started s now) now = false → s.startTime = 0 ∨ now.val < s.startTime.val + 2 ^ 32
  | .setMaxMemoryUsageTarget _ => True

instance (s : CStats) : DecidablePred (Timely s) := fun event => by
  cases event <;> unfold Timely <;> infer_instance

/-- The capacity is above the limit, and the samples well below. -/
def Overshoots (s : CStats) : Prop :=
  s.cleanupCounter ≥ CLEANUP_SAMPLES_THRESHOLD ∧ dynamicUsage s.capacity > s.maxStatsMemory.toNat ∧
    s.samples.length > 1 ∧ dynamicUsage s.samples.length + sizeofSample ≤ s.maxStatsMemory.toNat

instance (s : CStats) : Decidable (Overshoots s) := inferInstanceAs (Decidable (_ ∧ _))

/-- No call adds a sample where its clean-up overshoots. -/
def Safe (grow : Nat → Nat) (s : CStats) : Event → Prop
  | .addMempoolSample now txCount dynUsage fee =>
    s.enabled = true → tooSoon (started s now) now = false →
      ¬Overshoots (pushBack grow (started s now) (sampleAt (started s now) now txCount dynUsage fee))
  | .setMaxMemoryUsageTarget _ => True

instance (grow : Nat → Nat) (s : CStats) : DecidablePred (Safe grow s) := fun event => by
  cases event <;> unfold Safe <;> infer_instance

variable {grow : Nat → Nat} {s : CStats} {now : Seconds} {txCount dynUsage fee : Int} {event : Event}

/-! ## One call -/

theorem dynamicUsage_pos {n : Nat} (h : n ≠ 0) : dynamicUsage n = 32 * n + 16 := by
  unfold dynamicUsage mallocUsage sizeofSample
  rw [if_neg (by omega)]
  omega

variable {maxStatsMemory : Uint64} {samples : List CStatsMempoolSample} {size : Nat}

theorem itemsToRemove_lt (h : size ≠ 0) : itemsToRemove maxStatsMemory size < size := by
  unfold itemsToRemove
  simp only
  split <;> omega

theorem itemsToRemove_eq_zero_iff (h : size > 1) (hfits : dynamicUsage size ≤ maxStatsMemory.toNat) :
    itemsToRemove maxStatsMemory size = 0 ↔ maxStatsMemory.toNat < dynamicUsage size + sizeofSample := by
  have hone : (1 : Uint64).toNat = 1 := rfl
  unfold itemsToRemove
  simp only [BitVec.toNat_sub, BitVec.toNat_add, BitVec.toNat_ofNat, sizeofSample, hone] at *
  generalize dynamicUsage size = usage at *
  constructor
  · intro hzero
    split at hzero <;> omega
  · intro hlt
    rw [if_neg (by omega)]
    omega

theorem removedBy_lt (h : removedBy s ≠ 0) : removedBy s < s.samples.length := by
  unfold removedBy at h ⊢
  split
  · next hcond => exact itemsToRemove_lt (by omega)
  · next hcond => exact absurd (if_neg hcond) h

theorem removedBy_eq_zero_iff (hfits : dynamicUsage s.samples.length ≤ s.maxStatsMemory.toNat) :
    removedBy s = 0 ↔ ¬Overshoots s := by
  unfold removedBy Overshoots
  split
  · next hcond =>
    rw [itemsToRemove_eq_zero_iff hcond.2.2 hfits]
    constructor
    · rintro hlt ⟨-, -, -, _⟩
      omega
    · intro hnot
      by_contra hge
      exact hnot ⟨hcond.1, hcond.2.1, hcond.2.2, by omega⟩
  · next hcond =>
    refine iff_of_true rfl ?_
    rintro ⟨hcount, hcap, hlen, -⟩
    exact hcond ⟨hcount, hcap, hlen⟩

theorem cleanup_samples : (cleanup s).samples = s.samples.drop (removedBy s) := by
  unfold cleanup
  split
  · rfl
  · next hcount =>
    unfold removedBy
    rw [if_neg fun hcond => hcount hcond.1]
    rfl

theorem started_samples (s : CStats) (now : Seconds) : (started s now).samples = s.samples := by
  unfold started
  split <;> rfl

theorem started_maxStatsMemory : (started s now).maxStatsMemory = s.maxStatsMemory := by
  unfold started
  split <;> rfl

theorem addMempoolSample_cases (grow : Nat → Nat) (s : CStats) (now : Seconds) (txCount dynUsage fee : Int) :
    (addMempoolSample grow s now txCount dynUsage fee).samples = s.samples ∨
      s.enabled = true ∧ tooSoon (started s now) now = false ∧
        addMempoolSample grow s now txCount dynUsage fee =
          cleanup (pushBack grow (started s now) (sampleAt (started s now) now txCount dynUsage fee)) := by
  unfold addMempoolSample
  cases henabled : s.enabled with
  | false => exact .inl rfl
  | true =>
    simp only [Bool.not_true, Bool.false_eq_true, if_false]
    cases htoo : tooSoon (started s now) now with
    | true => exact .inl (started_samples _ _)
    | false => exact .inr ⟨trivial, rfl, rfl⟩

theorem Kept.of_eq {s' : CStats} (h : s'.samples = s.samples) : Kept s s' := by
  refine ⟨[], 0, ?_, by simp, fun hne => absurd rfl hne, fun _ => rfl⟩
  rw [h, append_nil, drop_zero]

theorem kept_step (hsafe : Safe grow s event) : Kept s (step grow s event) := by
  cases event with
  | setMaxMemoryUsageTarget maxMem => exact Kept.of_eq rfl
  | addMempoolSample now txCount dynUsage fee =>
    rcases addMempoolSample_cases grow s now txCount dynUsage fee with hsame | ⟨henabled, htoo, hadd⟩
    · exact Kept.of_eq hsame
    · have hsafe := hsafe henabled htoo
      generalize hpushed : pushBack grow (started s now) (sampleAt (started s now) now txCount dynUsage fee) =
        pushed at hadd hsafe
      have hsamples : pushed.samples = s.samples ++ [sampleAt (started s now) now txCount dynUsage fee] := by
        rw [← hpushed, ← started_samples s now]
        rfl
      have hmax : pushed.maxStatsMemory = s.maxStatsMemory := by
        rw [← hpushed]
        exact started_maxStatsMemory
      refine ⟨[sampleAt (started s now) now txCount dynUsage fee], removedBy pushed, ?_, le_rfl, ?_, ?_⟩
      · show (addMempoolSample grow s now txCount dynUsage fee).samples = _
        rw [hadd, cleanup_samples, hsamples]
      · rw [← hsamples]
        exact removedBy_lt
      · rw [← hsamples, ← hmax]
        exact fun hfits => (removedBy_eq_zero_iff hfits).mpr hsafe

theorem getLast_le_of_increasing (h : Increasing samples) {back : CStatsMempoolSample}
    (hback : samples.getLast? = some back) : ∀ a ∈ samples, a.timeDelta.toNat ≤ back.timeDelta.toNat := by
  obtain ⟨_, rfl⟩ := getLast?_eq_some_iff.mp hback
  intro a ha
  rcases mem_append.mp ha with ha | ha
  · exact Nat.le_of_lt ((pairwise_append.mp h).2.2 a ha back mem_cons_self)
  · rw [mem_singleton.mp ha]

theorem increasing_step (h : Increasing s.samples) (htimely : Timely s event) :
    Increasing (step grow s event).samples := by
  cases event with
  | setMaxMemoryUsageTarget maxMem => exact h
  | addMempoolSample now txCount dynUsage fee =>
    rcases addMempoolSample_cases grow s now txCount dynUsage fee with hsame | ⟨henabled, htoo, hadd⟩
    · show Increasing (addMempoolSample grow s now txCount dynUsage fee).samples
      rw [hsame]
      exact h
    · show Increasing (addMempoolSample grow s now txCount dynUsage fee).samples
      rw [hadd, cleanup_samples]
      refine List.Pairwise.sublist (drop_sublist _ _) ?_
      show Increasing ((started s now).samples ++ [sampleAt (started s now) now txCount dynUsage fee])
      rw [started_samples]
      refine pairwise_append.mpr ⟨h, pairwise_singleton _ _, ?_⟩
      intro a ha b hb
      rw [mem_singleton.mp hb]
      -- the last sample is more than two seconds old, and the new one is the youngest
      cases hback : s.samples.getLast? with
      | none =>
        rw [getLast?_eq_none_iff.mp hback] at ha
        cases ha
      | some back =>
        have hle := getLast_le_of_increasing h hback a ha
        have htoo' := htoo
        unfold tooSoon at htoo
        rw [started_samples, hback, Option.any_some] at htoo
        have htoo := of_decide_eq_false htoo
        unfold SAMPLE_MIN_DELTA_IN_SEC at htoo
        have hstart : s.startTime ≠ 0 := by
          intro hzero
          rw [started, if_pos hzero] at htoo
          simp only at htoo
          omega
        rw [started, if_neg hstart] at htoo ⊢
        have hnow := (htimely henabled htoo').resolve_left hstart
        unfold sampleAt
        simp only [BitVec.toNat_ofInt]
        omega

/-! ## Runs -/

/-- In a run of timely and safe calls no sample is lost without need. -/
theorem samples_kept (events : List Event)
    (h : ∀ n event, events[n]? = some event →
      Timely (run grow (events.take n)) event ∧ Safe grow (run grow (events.take n)) event) :
    ∀ n ≤ events.length, Increasing (run grow (events.take n)).samples ∧
      ∀ event, events[n]? = some event → Kept (run grow (events.take n)) (run grow (events.take (n + 1))) := by
  have hnext : ∀ {n event}, events[n]? = some event →
      run grow (events.take (n + 1)) = step grow (run grow (events.take n)) event := by
    intro n event hevent
    unfold run
    rw [take_add_one, hevent, foldl_append]
    rfl
  intro n hn
  constructor
  · induction n with
    | zero => exact List.Pairwise.nil
    | succ n ih =>
      have hevent := getElem?_eq_getElem (show n < events.length by omega)
      rw [hnext hevent]
      exact increasing_step (ih (by omega)) (h n _ hevent).1
  · intro event hevent
    rw [hnext hevent]
    exact kept_step (h n event hevent).2

def doubling (capacity : Nat) : Nat := max 1 (2 * capacity)

def sampleCalls (count : Nat) : List Event :=
  (List.range count).map fun i => .addMempoolSample (Fin.ofNat _ (1600000000 + 3 * i)) 5 1000 1000

def fullRun : List Event := .setMaxMemoryUsageTarget 3000 :: sampleCalls 100

/-- A hundred samples, of which the clean-up drops seven. -/
theorem samples_kept_full : Increasing (run doubling fullRun).samples ∧ (run doubling fullRun).samples.length = 93 ∧
    ∀ event, fullRun[100]? = some event → Kept (run doubling (fullRun.take 100)) (run doubling (fullRun.take 101)) := by
  have hall : ((List.range 101).all fun n => fullRun[n]?.all fun event =>
      Timely (run doubling (fullRun.take n)) event ∧ Safe doubling (run doubling (fullRun.take n)) event) = true := by
    decide +kernel
  have hkept := samples_kept fullRun fun n event hevent => by
    obtain ⟨hn, -⟩ := List.getElem?_eq_some_iff.mp hevent
    have hcalls := all_eq_true.mp hall n (mem_range.mpr hn)
    rw [hevent] at hcalls
    exact of_decide_eq_true hcalls
  exact ⟨(hkept 101 (by decide)).1, by decide +kernel, (hkept 100 (by decide)).2⟩

/-- They fit into 4000 bytes, but the vector has room for 128. -/
theorem samples_lost : ¬∀ events : List Event, ∀ n ≤ events.length, Increasing (run doubling (events.take n)).samples ∧
    ∀ event, events[n]? = some event → Kept (run doubling (events.take n)) (run doubling (events.take (n + 1))) := by
  intro hall
  have hkept := (hall (.setMaxMemoryUsageTarget 4000 :: sampleCalls 100) 100 (by decide)).2 _ rfl
  have hbefore : (run doubling ((.setMaxMemoryUsageTarget 4000 :: sampleCalls 100).take 100)).samples.length = 99 := by
    decide +kernel
  have hmax : (run doubling ((.setMaxMemoryUsageTarget 4000 :: sampleCalls 100).take 100)).maxStatsMemory.toNat =
      4000 := by
    decide +kernel
  have hafter : (run doubling ((.setMaxMemoryUsageTarget 4000 :: sampleCalls 100).take 101)).samples.length = 1 := by
    decide +kernel
  obtain ⟨_, _, hsamples, _, -, hneed⟩ := hkept
  have hlength := congrArg length hsamples
  rw [hafter, length_drop, length_append, hbefore] at hlength
  rw [length_append, hbefore, hmax, dynamicUsage_pos (by omega)] at hneed
  omega

/-! ## Queries -/

/-- The stored samples in the range, if there are any. -/
def RangeAnswered (s : CStats) (fromTime toTime : Nat) : Prop :=
  ∃ samples times, mempoolGetValuesInRange s fromTime toTime = .ok (samples, times) ∧ samples <:+: s.samples ∧
    (fromTime ≤ toTime → ¬(fromTime = 0 ∧ toTime = 0) →
      (∃ a ∈ s.samples, fromTime ≤ sampleTime s a ∧ sampleTime s a ≤ toTime) →
      samples = s.samples.filter fun a => fromTime ≤ sampleTime s a ∧ sampleTime s a ≤ toTime)

variable {fromTime toTime : Nat} {rest : List CStatsMempoolSample} {it fromSample toSample : Int} {i j : Nat}

theorem findRange_skip {early : List CStatsMempoolSample}
    (h : ∀ a ∈ early, sampleTime s a < fromTime ∧ sampleTime s a ≤ toTime) :
    findRange s fromTime toTime (early ++ rest) it fromSample toSample false =
      findRange s fromTime toTime rest (it + early.length) fromSample toSample false := by
  induction early generalizing it with
  | nil => simp
  | cons a early ih =>
    obtain ⟨_, _⟩ := h a mem_cons_self
    rw [cons_append, findRange, if_neg (by omega), if_neg (by omega), ih fun b hb => h b (mem_cons_of_mem _ hb),
      length_cons, Nat.cast_succ]
    congr 1
    omega

/-- Behind the first sample of the range, the loop stops at its end. -/
theorem findRange_set : findRange s fromTime toTime rest it fromSample toSample true =
    (fromSample, if rest.all fun a => sampleTime s a ≤ toTime then toSample
      else it + (rest.takeWhile fun a => sampleTime s a ≤ toTime).length - 1) := by
  induction rest generalizing it with
  | nil => rfl
  | cons a rest ih =>
    rw [findRange, if_neg (by simp)]
    by_cases hle : sampleTime s a ≤ toTime
    · rw [if_neg (by omega), ih]
      simp only [all_cons, hle, decide_true, Bool.true_and, takeWhile_cons, if_true, length_cons, Nat.cast_succ]
      split
      · rfl
      · congr 1
        omega
    · simp [hle]

theorem sampleAtPosition_ok {i : Nat} (h : i < s.samples.length) : ∃ sample, sampleAtPosition s i = .ok sample := by
  refine ⟨s.samples[i], ?_⟩
  show (match s.samples[i]? with | some sample => Except.ok sample | none => .error Fault.badIterator) = _
  rw [getElem?_eq_getElem h]

theorem findRange_bounds {front : CStatsMempoolSample} {later : List CStatsMempoolSample}
    (hsamples : s.samples = front :: later) (h : ¬(toTime < sampleTime s front ∧ sampleTime s front < fromTime)) :
    ∃ i j : Nat, findRange s fromTime toTime s.samples 0 0 (s.samples.length - 1) false = (↑i, ↑j) ∧ i ≤ j ∧
      j < s.samples.length := by
  set p : CStatsMempoolSample → Bool := fun a => sampleTime s a < fromTime ∧ sampleTime s a ≤ toTime with hp
  have hpos : 0 < s.samples.length := by simp [hsamples]
  have hearly : ∀ a ∈ s.samples.takeWhile p, sampleTime s a < fromTime ∧ sampleTime s a ≤ toTime := by
    intro a ha
    simpa [hp] using mem_takeWhile_imp ha
  have hlength := congrArg length (takeWhile_append_dropWhile (p := p) (l := s.samples))
  rw [length_append] at hlength
  generalize hlast : (s.samples.length : Int) - 1 = last
  conv in findRange s fromTime toTime s.samples _ _ _ _ => rw [← takeWhile_append_dropWhile (p := p) (l := s.samples)]
  rw [findRange_skip hearly]
  cases hrest : s.samples.dropWhile p with
  | nil =>
    refine ⟨0, s.samples.length - 1, ?_, by omega, by omega⟩
    simp only [findRange, Prod.mk.injEq]
    omega
  | cons a rest =>
    rw [hrest, length_cons] at hlength
    have hstop : p a = false := by
      have hnot := head?_dropWhile_not p s.samples
      rw [hrest] at hnot
      simpa using hnot
    rw [findRange]
    by_cases hge : sampleTime s a ≥ fromTime
    · rw [if_pos ⟨hge, by simp⟩, findRange_set]
      have hle := (takeWhile_sublist (p := fun a => decide (sampleTime s a ≤ toTime)) (l := rest)).length_le
      split
      · refine ⟨(s.samples.takeWhile p).length, s.samples.length - 1, ?_, by omega, by omega⟩
        simp only [Prod.mk.injEq]
        omega
      · refine ⟨(s.samples.takeWhile p).length,
          (s.samples.takeWhile p).length + (rest.takeWhile fun a => sampleTime s a ≤ toTime).length,
          ?_, by omega, by omega⟩
        simp only [Prod.mk.injEq]
        omega
    · have hgt : sampleTime s a > toTime := by
        by_contra hle
        have hpa : p a = true := by simp [hp]; omega
        rw [hpa] at hstop
        cases hstop
      rw [if_neg (by omega), if_pos hgt]
      -- the first sample is not the one the loop stops at
      have hearlier : (s.samples.takeWhile p).length ≠ 0 := by
        intro hnone
        rw [hsamples] at hrest hnone
        rw [takeWhile_cons] at hnone
        rw [dropWhile_cons] at hrest
        split at hnone
        · cases hnone
        · next hfront =>
          rw [if_neg hfront] at hrest
          obtain ⟨rfl, -⟩ := cons.inj hrest
          exact h ⟨hgt, by omega⟩
      refine ⟨0, (s.samples.takeWhile p).length - 1, ?_, by omega, by omega⟩
      simp only [Prod.mk.injEq]
      omega

theorem split_at_range (h : samples.Pairwise fun a b => sampleTime s a < sampleTime s b)
    (hrange : fromTime ≤ toTime) : samples = samples.filter (fun a => sampleTime s a < fromTime) ++
      (samples.filter (fun a => fromTime ≤ sampleTime s a ∧ sampleTime s a ≤ toTime) ++
        samples.filter fun a => sampleTime s a > toTime) := by
  induction samples with
  | nil => rfl
  | cons a samples ih =>
    obtain ⟨hlater, hrest⟩ := pairwise_cons.mp h
    have hnone : ∀ {q : CStatsMempoolSample → Prop} [DecidablePred q], (∀ b, sampleTime s a < sampleTime s b → ¬q b) →
        samples.filter (fun b => q b) = [] := by
      intro q _ hq
      refine filter_eq_nil_iff.mpr fun b hb => ?_
      simpa using hq b (hlater b hb)
    by_cases hbefore : sampleTime s a < fromTime
    · rw [filter_cons_of_pos (by simpa using hbefore), filter_cons_of_neg (by simp; omega),
        filter_cons_of_neg (by simp; omega), cons_append, ← ih hrest]
    · by_cases hwithin : sampleTime s a ≤ toTime
      · rw [filter_cons_of_neg (by simpa using hbefore), filter_cons_of_pos (by simp; omega),
          filter_cons_of_neg (by simp; omega), hnone fun b hb hlt => by omega, nil_append, cons_append]
        have hsplit := ih hrest
        rw [hnone fun b hb hlt => by omega, nil_append] at hsplit
        rw [← hsplit]
      · rw [filter_cons_of_neg (by simpa using hbefore), filter_cons_of_neg (by simp; omega),
          filter_cons_of_pos (by simp; omega), hnone fun b hb hlt => by omega, hnone fun b hb hle => by omega]
        have hsplit := ih hrest
        rw [hnone fun b hb hlt => by omega, hnone fun b hb hle => by omega] at hsplit
        rw [nil_append, nil_append] at hsplit ⊢
        rw [← hsplit]

theorem findRange_exact (hsorted : s.samples.Pairwise fun a b => sampleTime s a < sampleTime s b)
    (hrange : fromTime ≤ toTime) (hsome : ∃ a ∈ s.samples, fromTime ≤ sampleTime s a ∧ sampleTime s a ≤ toTime)
    (h : findRange s fromTime toTime s.samples 0 0 (s.samples.length - 1) false = (↑i, ↑j)) :
    (s.samples.take (j + 1)).drop i = s.samples.filter fun a =>
      fromTime ≤ sampleTime s a ∧ sampleTime s a ≤ toTime := by
  have hsplit := split_at_range hsorted hrange
  generalize hearly : s.samples.filter (fun a => decide (sampleTime s a < fromTime)) = early at hsplit
  generalize hwithin : s.samples.filter (fun a => decide (fromTime ≤ sampleTime s a ∧ sampleTime s a ≤ toTime)) =
    within at hsplit ⊢
  generalize hlate : s.samples.filter (fun a => decide (sampleTime s a > toTime)) = late at hsplit
  have hmem : ∀ a ∈ within, fromTime ≤ sampleTime s a ∧ sampleTime s a ≤ toTime := by
    intro a ha
    rw [← hwithin] at ha
    simpa using of_mem_filter ha
  cases within with
  | nil =>
    obtain ⟨a, ha, hin⟩ := hsome
    have hfound : a ∈ s.samples.filter fun a => decide (fromTime ≤ sampleTime s a ∧ sampleTime s a ≤ toTime) :=
      mem_filter.mpr ⟨ha, decide_eq_true hin⟩
    rw [hwithin] at hfound
    cases hfound
  | cons a within =>
    have hskip : ∀ b ∈ early, sampleTime s b < fromTime ∧ sampleTime s b ≤ toTime := by
      intro b hb
      rw [← hearly] at hb
      have hlt : sampleTime s b < fromTime := by simpa using of_mem_filter hb
      exact ⟨hlt, by omega⟩
    have hbehind : ∀ b ∈ late, sampleTime s b > toTime := by
      intro b hb
      rw [← hlate] at hb
      simpa using of_mem_filter hb
    have hlength := congrArg length hsplit
    rw [length_append, length_append, length_cons] at hlength
    generalize hlast : (s.samples.length : Int) - 1 = last at h
    conv at h in findRange s fromTime toTime s.samples _ _ _ _ => rw [hsplit]
    rw [findRange_skip hskip, cons_append, findRange, if_pos ⟨(hmem a mem_cons_self).1, by simp⟩, findRange_set,
      Prod.mk.injEq] at h
    obtain ⟨_, hj⟩ := h
    have hall : ∀ b ∈ within, decide (sampleTime s b ≤ toTime) = true := fun b hb =>
      decide_eq_true (hmem b (mem_cons_of_mem _ hb)).2
    have hj : j = early.length + within.length := by
      cases late with
      | nil =>
        rw [append_nil, if_pos (all_eq_true.mpr hall)] at hj
        rw [length_nil] at hlength
        omega
      | cons b late =>
        have hnot : ¬(sampleTime s b ≤ toTime) := by
          have := hbehind b mem_cons_self
          omega
        rw [if_neg (by simp; exact fun _ hle => absurd hle hnot), takeWhile_append_of_pos hall,
          takeWhile_cons_of_neg (by simpa using hnot), append_nil] at hj
        omega
    rw [hsplit, hj, show i = early.length by omega, take_append, take_of_length_le (by omega),
      drop_left, show early.length + within.length + 1 - early.length = (a :: within).length by simp; omega, take_left]

theorem Increasing.sampleTime (h : Increasing s.samples) :
    s.samples.Pairwise fun a b => sampleTime s a < sampleTime s b :=
  h.imp fun hlt => Nat.add_lt_add_left hlt _

theorem query_of_positions (hij : i ≤ j) (hj : j < s.samples.length) :
    ∃ times, (do
      let subset ← copyRange s i ((j : Int) + 1)
      let first ← sampleAtPosition s i
      let last ← sampleAtPosition s j
      return (subset, sampleTime s first, sampleTime s last)) = .ok ((s.samples.take (j + 1)).drop i, times) := by
  obtain ⟨first, hfirst⟩ := sampleAtPosition_ok (show i < s.samples.length by omega)
  obtain ⟨last, hlast⟩ := sampleAtPosition_ok hj
  refine ⟨(sampleTime s first, sampleTime s last), ?_⟩
  unfold copyRange
  rw [if_pos ⟨by omega, by omega, by omega⟩, hfirst, hlast]
  rfl

/-- The query answers unless the range lies before the first sample or ends there. -/
theorem rangeAnswered_iff {front : CStatsMempoolSample} {later : List CStatsMempoolSample}
    (hsamples : s.samples = front :: later) (hincreasing : Increasing s.samples) : RangeAnswered s fromTime toTime ↔
      (s.enabled = true ∧ ¬(toTime < sampleTime s front ∧ sampleTime s front < fromTime)) ∨
      (s.enabled = false ∧ ¬(fromTime ≤ toTime ∧ ¬(fromTime = 0 ∧ toTime = 0) ∧
        ∃ a ∈ s.samples, fromTime ≤ sampleTime s a ∧ sampleTime s a ≤ toTime)) := by
  have hsorted := hincreasing.sampleTime
  have hhead : s.samples.head? = some front := by rw [hsamples]; rfl
  obtain ⟨back, hback⟩ : ∃ back, s.samples.getLast? = some back := by simp [hsamples, getLast?_cons]
  unfold RangeAnswered mempoolGetValuesInRange
  cases henabled : s.enabled with
  | false =>
    simp only [Bool.not_false, if_true, Bool.false_eq_true, false_and, true_and, false_or]
    constructor
    · rintro ⟨samples, times, hok, -, hexact⟩ ⟨hrange, hzero, a, ha, hin⟩
      obtain ⟨rfl, -⟩ := Prod.mk.inj (Except.ok.inj hok)
      have hfound : a ∈ s.samples.filter fun a => decide (fromTime ≤ sampleTime s a ∧ sampleTime s a ≤ toTime) :=
        mem_filter.mpr ⟨ha, decide_eq_true hin⟩
      rw [← hexact hrange hzero ⟨a, ha, hin⟩] at hfound
      cases hfound
    · intro hnone
      exact ⟨[], _, rfl, nil_infix, fun hrange hzero hsome => absurd ⟨hrange, hzero, hsome⟩ hnone⟩
  | true =>
    simp only [Bool.not_true, Bool.false_eq_true, if_false, true_and, Bool.true_eq_false, false_and, or_false,
      hhead, hback]
    split
    · next hsubset =>
      constructor
      · rintro ⟨samples, times, hok, -, -⟩ ⟨hbefore, _⟩
        -- the loop stops at the first sample, and the position before it is read
        have hstop : findRange s fromTime toTime s.samples 0 0 (s.samples.length - 1) false = (0, -1) := by
          rw [hsamples, findRange, if_neg (by omega), if_pos hbefore]
          rfl
        rw [hstop] at hok
        obtain ⟨_, -, hok⟩ := bind_ok.mp hok
        obtain ⟨_, -, hok⟩ := bind_ok.mp hok
        cases hok
      · intro hcond
        obtain ⟨_, _, hfound, hij, hj⟩ := findRange_bounds hsamples hcond
        obtain ⟨times, hok⟩ := query_of_positions hij hj
        rw [hfound]
        refine ⟨_, times, hok, ?_, fun hrange _ hsome => findRange_exact hsorted hrange hsome hfound⟩
        exact (drop_suffix _ _).isInfix.trans ( take_prefix _ _).isInfix
    · next hall =>
      refine iff_of_true ⟨s.samples, _, rfl, infix_refl _, fun hrange hzero _ => ?_⟩ (by omega)
      refine (filter_eq_self.mpr fun a ha => ?_).symm
      have hfirst : sampleTime s front ≤ sampleTime s a := by
        rw [hsamples] at ha hsorted
        rcases mem_cons.mp ha with rfl | ha
        · exact le_rfl
        · exact Nat.le_of_lt ((pairwise_cons.mp hsorted).1 a ha)
      have hlast : sampleTime s a ≤ sampleTime s back :=
          Nat.add_le_add_left (getLast_le_of_increasing hincreasing hback a ha) _
      simp only [decide_eq_true_eq]
      omega

def threeSamples : CStats where
  startTime := 1600000000
  samples := [⟨0, 1, 1, 1⟩, ⟨5, 2, 2, 2⟩, ⟨10, 3, 3, 3⟩]
  capacity := 4
  cleanupCounter := 3
  maxStatsMemory := 10485760
  enabled := true

/-- The second sample alone. -/
theorem middle_answered : RangeAnswered threeSamples 1600000002 1600000007 :=
  (rangeAnswered_iff (s := threeSamples) rfl (by decide)).mpr (.inl ⟨rfl, by decide⟩)

/-- The position before the first sample is read. -/
theorem inverted_range_faults :
    Increasing threeSamples.samples ∧ ¬RangeAnswered threeSamples 1600000001 1599999999 := by
  refine ⟨by decide, ?_⟩
  rintro ⟨samples, _, hok, -⟩
  have hfault : mempoolGetValuesInRange threeSamples 1600000001 1599999999 = .error .badIterator := by decide
  rw [hfault] at hok
  cases hok

end FullNode.Stats
