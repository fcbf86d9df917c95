import FullNode.Lib.Diagram
import FullNode.MiniMiner
import Mathlib.Tactic.LinearCombination

/-!
# Fee diagrams

`CompareChunks` walks along two diagrams of fees over sizes. `Assume` stops nothing, and is left out.
-/

namespace FullNode.FeeDiagrams

open List
open MiniMiner (FeeFrac)

/-! ## The code -/

def feeRateCompare (a b : FeeFrac) : Ordering := compare (a.fee * b.size) (b.fee * a.size)

def add (a b : FeeFrac) : FeeFrac := ⟨a.fee + b.fee, a.size + b.size⟩

def sub (a b : FeeFrac) : FeeFrac := ⟨a.fee - b.fee, a.size - b.size⟩

/-- `std::partial_ordering`. -/
inductive PartialOrdering where
  | less
  | equivalent
  | greater
  | unordered
  deriving DecidableEq

/-- An input: `next_index`, `accum` and `better_somewhere`. -/
structure Side where
  chunks : List FeeFrac
  accum : FeeFrac
  better : Bool
  deriving DecidableEq

def Side.nextPoint (side : Side) : Option FeeFrac := side.chunks.head?.map fun chunk => add chunk side.accum

def Side.advance (side : Side) : Side :=
  match side.chunks with
  | [] => side
  | chunk :: chunks => { side with chunks, accum := add side.accum chunk }

/-- What the comparison at `point_p` says about a side. -/
def Side.mark (side : Side) (higher : Bool) : Side := { side with better := side.better || higher }

def Side.slope (side : Side) : FeeFrac :=
  match side.nextPoint with
  | none => ⟨0, 1⟩
  | some point_b => sub point_b side.accum

def Side.pass (side : Side) (size : Int) : Side :=
  match side.nextPoint with
  | none => side
  | some point_b => if point_b.size = size then side.advance else side

/-- A round of the loop, at the next point of `unproc`. -/
def advanceBoth (unproc other : Side) (point_p : FeeFrac) : Side × Side :=
  let cmp := feeRateCompare (sub point_p other.accum) other.slope
  ((unproc.mark (cmp == .gt)).advance, (other.pass point_p.size).mark (cmp == .lt))

/-- The side with the first point not processed: true for the second. -/
def unprocSide (side0 side1 : Side) : Bool :=
  match side0.nextPoint, side1.nextPoint with
  | none, _ => true
  | _, none => false
  | some point0, some point1 => point0.size > point1.size

def finish (side0 side1 : Side) : PartialOrdering :=
  match side0.better, side1.better with
  | true, false => .greater
  | false, true => .less
  | _, _ => .equivalent

def round (side0 side1 : Side) : Side × Side :=
  if unprocSide side0 side1 then
    match side1.nextPoint with
    | none => (side0, side1)
    | some point_p => (advanceBoth side1 side0 point_p).swap
  else
    match side0.nextPoint with
    | none => (side0, side1)
    | some point_p => advanceBoth side0 side1 point_p

def compareLoop : Nat → Side → Side → PartialOrdering
  | 0, side0, side1 => finish side0 side1
  | rounds + 1, side0, side1 =>
    if side0.chunks.isEmpty && side1.chunks.isEmpty then finish side0 side1
    else
      let sides := round side0 side1
      if sides.1.better && sides.2.better then .unordered else compareLoop rounds sides.1 sides.2

def compareChunks (chunks0 chunks1 : List FeeFrac) : PartialOrdering :=
  compareLoop (chunks0.length + chunks1.length) ⟨chunks0, ⟨0, 0⟩, false⟩ ⟨chunks1, ⟨0, 0⟩, false⟩

/-! ## The diagram of a list of chunks -/

open Diagram

def toStep (chunk : FeeFrac) : Step ℚ := ⟨chunk.fee, chunk.size⟩

def diagram (chunks : List FeeFrac) (size : ℚ) : ℚ := height (chunks.map toStep) size

def Sized (chunks : List FeeFrac) : Prop := ∀ chunk ∈ chunks, 0 < chunk.size

def curve (side : Side) (x : ℚ) : ℚ := heightFrom side.accum.fee side.accum.size (side.chunks.map toStep) x

variable {D D' : ℚ → ℚ} {x x0 x1 : ℚ} {side unproc other : Side} {point : FeeFrac} {a b : FeeFrac}

theorem sized_positive {chunks : List FeeFrac} (h : Sized chunks) : Positive (chunks.map toStep) := by
  intro s hs
  obtain ⟨chunk, hchunk, rfl⟩ := mem_map.mp hs
  exact Int.cast_pos.mpr (h chunk hchunk)

/-- A side that is processed up to a size of the diagram `D`. -/
structure Follows (D : ℚ → ℚ) (x0 : ℚ) (side : Side) : Prop where
  sized : Sized side.chunks
  behind : (side.accum.size : ℚ) ≤ x0
  ahead : ∀ point, side.nextPoint = some point → x0 < point.size
  curve : ∀ x, x0 ≤ x → curve side x = D x

theorem nextPoint_some (h : side.nextPoint = some point) :
    ∃ chunk chunks, side.chunks = chunk :: chunks ∧ point = add chunk side.accum := by
  unfold Side.nextPoint at h
  cases hchunks : side.chunks with
  | nil =>
    rw [hchunks] at h
    cases h
  | cons chunk chunks =>
    rw [hchunks] at h
    exact ⟨chunk, chunks, rfl, (Option.some.inj h).symm⟩

theorem nextPoint_none (h : side.nextPoint = none) : side.chunks = [] := by
  unfold Side.nextPoint at h
  cases hchunks : side.chunks with
  | nil => rfl
  | cons chunk chunks =>
    rw [hchunks] at h
    cases h

theorem curve_advance (h : Follows D x0 side) (hnext : side.nextPoint = some point) (hx : (point.size : ℚ) ≤ x) :
    FeeDiagrams.curve side.advance x = FeeDiagrams.curve side x := by
  obtain ⟨_, _, hchunks, rfl⟩ := nextPoint_some hnext
  have hpos := sized_positive h.sized
  unfold curve Side.advance
  rw [hchunks, map_cons] at hpos ⊢
  dsimp only
  unfold add at hx ⊢
  push_cast at hx
  rw [heightFrom_cons_of_ge hpos (by unfold toStep; linarith)]
  unfold toStep
  push_cast
  rfl

namespace Follows

variable (h : Follows D x0 side)
include h

theorem mark (higher : Bool) : Follows D x0 (side.mark higher) := ⟨h.sized, h.behind, h.ahead, h.curve⟩

theorem advance (hnext : side.nextPoint = some point) : Follows D point.size side.advance := by
  have hcurve := fun x hx => curve_advance (x := x) h hnext hx
  have hahead := h.ahead point hnext
  have hsized := h.sized
  obtain ⟨chunk, chunks, hchunks, rfl⟩ := nextPoint_some hnext
  have hadvance : side.advance = ⟨chunks, add side.accum chunk, side.better⟩ := by
    unfold Side.advance
    rw [hchunks]
  rw [hchunks] at hsized
  have hsize : ((add side.accum chunk).size : ℚ) = ((add chunk side.accum).size : ℚ) := by
    unfold add
    push_cast
    ring
  refine ⟨?_, ?_, ?_, fun x hx => (hcurve x hx).trans (h.curve x (hahead.le.trans hx))⟩
  · rw [hadvance]
    exact fun chunk' hchunk' => hsized chunk' (mem_cons_of_mem _ hchunk')
  · rw [hadvance]
    exact hsize.le
  · rw [hadvance]
    intro point' hnext'
    obtain ⟨chunk', _, hchunks', rfl⟩ := nextPoint_some hnext'
    have hpos : (0 : ℚ) < chunk'.size := Int.cast_pos.mpr (hsized chunk' (by
      dsimp only at hchunks'
      rw [hchunks']
      exact mem_cons_of_mem _ mem_cons_self))
    have hsize' : ((add chunk' (add side.accum chunk)).size : ℚ) = chunk'.size + (add side.accum chunk).size := by
      show ((chunk'.size + (add side.accum chunk).size : Int) : ℚ) = _
      push_cast
      rfl
    dsimp only
    rw [hsize', hsize]
    linarith

theorem stay (hle : x0 ≤ x1) (hahead : ∀ point, side.nextPoint = some point → x1 < point.size) :
    Follows D x1 side :=
  ⟨h.sized, h.behind.trans hle, hahead, fun x hx => h.curve x (hle.trans hx)⟩

theorem straight (hahead : ∀ point, side.nextPoint = some point → x1 ≤ point.size) : StraightOn D x0 x1 := by
  have hpiece : StraightOn (FeeDiagrams.curve side) x0 x1 := by
    unfold FeeDiagrams.curve
    cases hchunks : side.chunks with
    | nil => exact straightOn_nil _ _
    | cons chunk chunks =>
      have hnext : side.nextPoint = some (add chunk side.accum) := by
        unfold Side.nextPoint
        rw [hchunks]
        rfl
      have hle := hahead _ hnext
      unfold add at hle
      push_cast at hle
      exact straightOn_cons (by unfold toStep; linarith)
  obtain ⟨slope, hslope⟩ := hpiece
  refine ⟨slope, fun x hx hx' => ?_⟩
  rw [← h.curve x hx, ← h.curve x0 le_rfl]
  exact hslope x hx hx'

theorem value (hnext : side.nextPoint = some point) : D point.size = point.fee := by
  rw [← h.curve _ (h.ahead point hnext).le]
  have hpos := sized_positive h.sized
  obtain ⟨chunk, _, hchunks, rfl⟩ := nextPoint_some hnext
  unfold FeeDiagrams.curve
  rw [hchunks, map_cons] at hpos ⊢
  have hsize : ((add chunk side.accum).size : ℚ) = side.accum.size + (toStep chunk).run := by
    unfold add toStep
    push_cast
    ring
  rw [hsize, heightFrom_cons_of_ge hpos le_rfl, heightFrom_start fun s hs => hpos s (mem_cons_of_mem _ hs)]
  unfold add toStep
  push_cast
  ring

omit h

end Follows

/-! ## A round -/

theorem slope_spec (h : Follows D x0 other) (hx : x0 ≤ x)
    (hahead : ∀ point, other.nextPoint = some point → x ≤ point.size) :
    0 < other.slope.size ∧ (D x - other.accum.fee) * other.slope.size = other.slope.fee * (x - other.accum.size) := by
  rw [← h.curve x hx]
  have hsized := h.sized
  unfold curve Side.slope
  split
  · next hnone =>
    rw [nextPoint_none hnone]
    unfold heightFrom
    refine ⟨by decide, ?_⟩
    rw [map_nil, height]
    push_cast
    ring
  · next point_b hsome =>
    have hle := hahead point_b hsome
    obtain ⟨chunk, _, hchunks, rfl⟩ := nextPoint_some hsome
    have hpos := hsized chunk (by rw [hchunks]; exact mem_cons_self)
    have hslope : sub (add chunk other.accum) other.accum = chunk := by
      unfold sub add
      dsimp only
      rw [add_sub_cancel_right, add_sub_cancel_right]
    unfold add at hle
    push_cast at hle
    rw [hslope, hchunks, map_cons, heightFrom_cons_of_le (by unfold toStep; linarith)]
    refine ⟨hpos, ?_⟩
    have hrise : (chunk.fee : ℚ) = (toStep chunk).rate * chunk.size := (toStep chunk).rise_eq (Int.cast_pos.mpr hpos)
    linear_combination -(x - other.accum.size) * hrise

theorem feeRateCompare_gt : (feeRateCompare a b == .gt) = true ↔ b.fee * a.size < a.fee * b.size := by
  unfold feeRateCompare
  rw [beq_iff_eq, compare_gt_iff_gt]

theorem feeRateCompare_lt : (feeRateCompare a b == .lt) = true ↔ a.fee * b.size < b.fee * a.size := by
  unfold feeRateCompare
  rw [beq_iff_eq, compare_lt_iff_lt]

theorem compare_slopes (h : Follows D x0 other) (hx : x0 ≤ point.size)
    (hahead : ∀ point_b, other.nextPoint = some point_b → (point.size : ℚ) ≤ point_b.size) :
    ((feeRateCompare (sub point other.accum) other.slope == .gt) = true ↔ D point.size < point.fee) ∧
      ((feeRateCompare (sub point other.accum) other.slope == .lt) = true ↔ (point.fee : ℚ) < D point.size) := by
  obtain ⟨hpos, hvalue⟩ := slope_spec h hx hahead
  rw [feeRateCompare_gt, feeRateCompare_lt]
  have hposRat : (0 : ℚ) < other.slope.size := Int.cast_pos.mpr hpos
  have hdifference : ((sub point other.accum).fee : ℚ) * other.slope.size - other.slope.fee *
      (sub point other.accum).size = (point.fee - D point.size) * other.slope.size := by
    unfold sub
    push_cast
    linear_combination hvalue
  rw [← Int.cast_lt (R := ℚ), ← Int.cast_lt (R := ℚ)]
  push_cast
  constructor
  · rw [← sub_pos, hdifference, mul_pos_iff_of_pos_right hposRat, sub_pos]
  · rw [← sub_pos, ← neg_sub, hdifference, ← neg_mul, mul_pos_iff_of_pos_right hposRat, neg_sub, sub_pos]

def Higher (D D' : ℚ → ℚ) (x1 : ℚ) : Prop := ∃ x, 0 ≤ x ∧ x ≤ x1 ∧ D' x < D x

theorem higher_step (hD : StraightOn D x0 x1) (hD' : StraightOn D' x0 x1) (hnonneg : 0 ≤ x0) (hle : x0 ≤ x1) :
    Higher D D' x1 ↔ Higher D D' x0 ∨ D' x1 < D x1 := by
  constructor
  · rintro ⟨x, hx, hx', hlt⟩
    rcases le_total x x0 with hbefore | hafter
    · exact .inl ⟨x, hx, hbefore, hlt⟩
    · rcases higher_at_end hD hD' hafter hx' hlt with hstart | hend
      · exact .inl ⟨x0, hnonneg, le_rfl, hstart⟩
      · exact .inr hend
  · rintro (⟨x, hx, hx', hlt⟩ | hlt)
    · exact ⟨x, hx, hx'.trans hle, hlt⟩
    · exact ⟨x1, hnonneg.trans hle, le_rfl, hlt⟩

/-- A side that follows its diagram and knows where it was higher. -/
structure Tracks (D D' : ℚ → ℚ) (x0 : ℚ) (side : Side) : Prop where
  follows : Follows D x0 side
  better : side.better = true ↔ Higher D D' x0

theorem advance_better (side : Side) : side.advance.better = side.better := by
  unfold Side.advance
  split <;> rfl

theorem pass_better (side : Side) (size : Int) : (side.pass size).better = side.better := by
  unfold Side.pass
  split
  · rfl
  · split
    · exact advance_better side
    · rfl

theorem mark_better (side : Side) (higher : Bool) : (side.mark higher).better = true ↔
    side.better = true ∨ higher = true :=
  Bool.or_eq_true_iff

theorem pass_follows (h : Follows D x0 other) (hx : x0 ≤ point.size)
    (hahead : ∀ point_b, other.nextPoint = some point_b → (point.size : ℚ) ≤ point_b.size) :
    Follows D point.size (other.pass point.size) := by
  unfold Side.pass
  split
  · next hnone =>
    refine h.stay hx fun point_b hsome => ?_
    rw [hnone] at hsome
    cases hsome
  · next point_b hsome =>
    split
    · next heq =>
      rw [← heq]
      exact h.advance hsome
    · next hne =>
      refine h.stay hx fun point_b' hsome' => ?_
      rw [hsome] at hsome'
      cases hsome'
      exact lt_of_le_of_ne (hahead point_b hsome) fun heq => hne (Int.cast_injective heq).symm

theorem advanceBoth_spec (hunproc : Tracks D D' x0 unproc) (hother : Tracks D' D x0 other) (hnonneg : 0 ≤ x0)
    (hnext : unproc.nextPoint = some point)
    (hahead : ∀ point_b, other.nextPoint = some point_b → (point.size : ℚ) ≤ point_b.size) :
    Tracks D D' point.size (advanceBoth unproc other point).1 ∧
      Tracks D' D point.size (advanceBoth unproc other point).2 := by
  have hx := (hunproc.follows.ahead point hnext).le
  have hvalue := hunproc.follows.value hnext
  obtain ⟨hgt, hlt⟩ := compare_slopes hother.follows hx hahead
  have hstraight : StraightOn D x0 point.size := hunproc.follows.straight fun point' hpoint' => by
    rw [hnext] at hpoint'
    rw [Option.some.inj hpoint']
  have hstraight' := hother.follows.straight hahead
  refine ⟨⟨?_, ?_⟩, ⟨?_, ?_⟩⟩
  · exact (hunproc.follows.mark _).advance hnext
  · show ((unproc.mark _).advance).better = true ↔ _
    rw [advance_better, mark_better, hunproc.better, hgt, higher_step hstraight hstraight' hnonneg hx, hvalue]
  · exact (pass_follows hother.follows hx hahead).mark _
  · show ((other.pass _).mark _).better = true ↔ _
    rw [mark_better, pass_better, hother.better, hlt, higher_step hstraight' hstraight hnonneg hx, hvalue]

/-! ## The comparison -/

variable {side0 side1 : Side} {D0 D1 : ℚ → ℚ}

def pending (side0 side1 : Side) : Nat := side0.chunks.length + side1.chunks.length

theorem advance_length (hnext : side.nextPoint = some point) : side.advance.chunks.length + 1 = side.chunks.length := by
  obtain ⟨_, chunks, hchunks, -⟩ := nextPoint_some hnext
  unfold Side.advance
  rw [hchunks]
  rfl

theorem advance_le (side : Side) : side.advance.chunks.length ≤ side.chunks.length := by
  unfold Side.advance
  split
  · exact le_rfl
  · next chunk chunks hchunks =>
    rw [hchunks]
    exact Nat.le_succ _

theorem pass_le (side : Side) (size : Int) : (side.pass size).chunks.length ≤ side.chunks.length := by
  unfold Side.pass
  split
  · exact le_rfl
  · split
    · exact advance_le side
    · exact le_rfl

theorem advanceBoth_pending (hnext : unproc.nextPoint = some point) (other : Side) :
    pending (advanceBoth unproc other point).1 (advanceBoth unproc other point).2 < pending unproc other := by
  have hadvance : (unproc.mark (feeRateCompare (sub point other.accum) other.slope == .gt)).advance.chunks.length + 1 =
      unproc.chunks.length := advance_length hnext
  have hpass := pass_le other point.size
  unfold pending
  show (Side.advance _).chunks.length + (other.pass point.size).chunks.length < _
  omega

theorem round_spec (h0 : Tracks D0 D1 x0 side0) (h1 : Tracks D1 D0 x0 side1) (hnonneg : 0 ≤ x0)
    (hleft : 0 < pending side0 side1) :
    ∃ x1, 0 ≤ x1 ∧ Tracks D0 D1 x1 (round side0 side1).1 ∧ Tracks D1 D0 x1 (round side0 side1).2 ∧
      pending (round side0 side1).1 (round side0 side1).2 < pending side0 side1 := by
  unfold round unprocSide
  rcases hnext0 : side0.nextPoint with _ | point0 <;> rcases hnext1 : side1.nextPoint with _ | point1
  · unfold pending at hleft
    rw [nextPoint_none hnext0, nextPoint_none hnext1] at hleft
    exact absurd hleft (lt_irrefl _)
  · dsimp only
    rw [if_pos rfl]
    obtain ⟨h1', h0'⟩ := advanceBoth_spec h1 h0 hnonneg hnext1 fun point_b hsome => by
      rw [hnext0] at hsome
      cases hsome
    have hfewer := advanceBoth_pending hnext1 side0
    refine ⟨point1.size, hnonneg.trans (h1.follows.ahead point1 hnext1).le, h0', h1', ?_⟩
    unfold pending at hfewer ⊢
    rw [Prod.fst_swap, Prod.snd_swap]
    omega
  · dsimp only
    rw [if_neg Bool.false_ne_true]
    obtain ⟨h0', h1'⟩ := advanceBoth_spec h0 h1 hnonneg hnext0 fun point_b hsome => by
      rw [hnext1] at hsome
      cases hsome
    exact ⟨point0.size, hnonneg.trans (h0.follows.ahead point0 hnext0).le, h0', h1', advanceBoth_pending hnext0 side1⟩
  · dsimp only
    split
    · next hgt =>
      rw [decide_eq_true_eq] at hgt
      obtain ⟨h1', h0'⟩ := advanceBoth_spec h1 h0 hnonneg hnext1 fun point_b hsome => by
        rw [hnext0] at hsome
        rw [← Option.some.inj hsome]
        exact_mod_cast hgt.le
      have hfewer := advanceBoth_pending hnext1 side0
      refine ⟨point1.size, hnonneg.trans (h1.follows.ahead point1 hnext1).le, h0', h1', ?_⟩
      unfold pending at hfewer ⊢
      rw [Prod.fst_swap, Prod.snd_swap]
      omega
    · next hle =>
      rw [decide_eq_true_eq, not_lt] at hle
      obtain ⟨h0', h1'⟩ := advanceBoth_spec h0 h1 hnonneg hnext0 fun point_b hsome => by
        rw [hnext1] at hsome
        rw [← Option.some.inj hsome]
        exact_mod_cast hle
      exact ⟨point0.size, hnonneg.trans (h0.follows.ahead point0 hnext0).le, h0', h1', advanceBoth_pending hnext0 side1⟩

def Exceeds (D0 D1 : ℚ → ℚ) : Prop := ∃ x, 0 ≤ x ∧ D1 x < D0 x

structure Verdict (D0 D1 : ℚ → ℚ) (verdict : PartialOrdering) : Prop where
  greater : verdict = .greater ↔ Exceeds D0 D1 ∧ ¬ Exceeds D1 D0
  less : verdict = .less ↔ Exceeds D1 D0 ∧ ¬ Exceeds D0 D1
  equivalent : verdict = .equivalent ↔ ¬ Exceeds D0 D1 ∧ ¬ Exceeds D1 D0
  unordered : verdict = .unordered ↔ Exceeds D0 D1 ∧ Exceeds D1 D0

theorem exceeds_of_higher (h : Higher D0 D1 x0) : Exceeds D0 D1 := by
  obtain ⟨x, hx, -, hlt⟩ := h
  exact ⟨x, hx, hlt⟩

theorem level_of_nil (h : Follows D x0 side) (hnil : side.chunks = []) (hx : x0 ≤ x) : D x = D x0 := by
  rw [← h.curve x hx, ← h.curve x0 le_rfl]
  unfold curve heightFrom
  rw [hnil, map_nil, height, height]

theorem exceeds_iff_higher (h0 : Follows D0 x0 side0) (h1 : Follows D1 x0 side1) (hnonneg : 0 ≤ x0)
    (hnil0 : side0.chunks = []) (hnil1 : side1.chunks = []) : Higher D0 D1 x0 ↔ Exceeds D0 D1 := by
  refine ⟨exceeds_of_higher, ?_⟩
  rintro ⟨x, hx, hlt⟩
  rcases le_total x x0 with hbefore | hafter
  · exact ⟨x, hx, hbefore, hlt⟩
  · rw [level_of_nil h0 hnil0 hafter, level_of_nil h1 hnil1 hafter] at hlt
    exact ⟨x0, hnonneg, le_rfl, hlt⟩

theorem finish_spec (h0 : side0.better = true ↔ Exceeds D0 D1) (h1 : side1.better = true ↔ Exceeds D1 D0)
    (hnot : (side0.better && side1.better) = false) : Verdict D0 D1 (finish side0 side1) := by
  unfold finish
  rcases hb0 : side0.better <;> rcases hb1 : side1.better <;> rw [hb0] at h0 hnot <;> rw [hb1] at h1 hnot
  all_goals simp only [Bool.false_eq_true, false_iff, true_iff] at h0 h1
  · exact ⟨by simp [h0], by simp [h1], by simp [h0, h1], by simp [h0]⟩
  · exact ⟨by simp [h0], by simp [h0, h1], by simp [h1], by simp [h0]⟩
  · exact ⟨by simp [h0, h1], by simp [h1], by simp [h0], by simp [h1]⟩
  · cases hnot

theorem end_spec (h0 : Tracks D0 D1 x0 side0) (h1 : Tracks D1 D0 x0 side1) (hnonneg : 0 ≤ x0)
    (hnot : (side0.better && side1.better) = false) (hdone : pending side0 side1 = 0) :
    Verdict D0 D1 (finish side0 side1) := by
  unfold pending at hdone
  have hnil0 := eq_nil_of_length_eq_zero (show side0.chunks.length = 0 by omega)
  have hnil1 := eq_nil_of_length_eq_zero (show side1.chunks.length = 0 by omega)
  apply finish_spec _ _ hnot
  · rw [h0.better, exceeds_iff_higher h0.follows h1.follows hnonneg hnil0 hnil1]
  · rw [h1.better, exceeds_iff_higher h1.follows h0.follows hnonneg hnil1 hnil0]

theorem compareLoop_spec (rounds : Nat) (h0 : Tracks D0 D1 x0 side0) (h1 : Tracks D1 D0 x0 side1) (hnonneg : 0 ≤ x0)
    (hnot : (side0.better && side1.better) = false) (hrounds : pending side0 side1 ≤ rounds) :
    Verdict D0 D1 (compareLoop rounds side0 side1) := by
  induction rounds generalizing side0 side1 x0 with
  | zero => exact end_spec h0 h1 hnonneg hnot (Nat.le_zero.mp hrounds)
  | succ rounds ih =>
    unfold compareLoop
    split
    · next hempty =>
      rw [Bool.and_eq_true, List.isEmpty_iff, List.isEmpty_iff] at hempty
      apply end_spec h0 h1 hnonneg hnot
      unfold pending
      rw [hempty.1, hempty.2]
      rfl
    · next hleft =>
      have hpending : 0 < pending side0 side1 := by
        unfold pending
        rw [Bool.and_eq_true, List.isEmpty_iff, List.isEmpty_iff, not_and_or] at hleft
        rcases hleft with hne | hne
        · exact Nat.add_pos_left (length_pos_of_ne_nil hne) _
        · exact Nat.add_pos_right _ (length_pos_of_ne_nil hne)
      obtain ⟨_, hnonneg', h0', h1', _⟩ := round_spec h0 h1 hnonneg hpending
      dsimp only
      split
      · next hboth =>
        rw [Bool.and_eq_true, h0'.better, h1'.better] at hboth
        have he0 := exceeds_of_higher hboth.1
        have he1 := exceeds_of_higher hboth.2
        exact ⟨by simp [he1], by simp [he0], by simp [he0], by simp [he0, he1]⟩
      · next hone => exact ih h0' h1' hnonneg' (Bool.eq_false_iff.mpr hone) (by omega)

theorem initial_tracks (chunks : List FeeFrac) (h : Sized chunks) {chunks' : List FeeFrac} (h' : Sized chunks') :
    Tracks (diagram chunks) (diagram chunks') 0 ⟨chunks, ⟨0, 0⟩, false⟩ := by
  refine ⟨⟨h, by simp, ?_, ?_⟩, ?_⟩
  · intro point hnext
    obtain ⟨chunk, chunks, hchunks, rfl⟩ := nextPoint_some hnext
    have hpos : (0 : ℚ) < chunk.size := Int.cast_pos.mpr (h chunk (by
      dsimp only at hchunks
      rw [hchunks]
      exact mem_cons_self))
    unfold add
    push_cast
    linarith
  · intro x _
    unfold curve heightFrom diagram
    simp
  · refine ⟨nofun, ?_⟩
    rintro ⟨x, hx, hx', hlt⟩
    obtain rfl : x = 0 := le_antisymm hx' hx
    unfold diagram at hlt
    rw [height_zero (sized_positive h), height_zero (sized_positive h')] at hlt
    exact absurd hlt (lt_irrefl _)

theorem compareChunks_spec {chunks0 chunks1 : List FeeFrac} (h0 : Sized chunks0) (h1 : Sized chunks1) :
    Verdict (diagram chunks0) (diagram chunks1) (compareChunks chunks0 chunks1) :=
  compareLoop_spec _ (initial_tracks chunks0 h0 h1) (initial_tracks chunks1 h1 h0) le_rfl rfl le_rfl

end FullNode.FeeDiagrams
