import FullNode.ArithUint256

/-!
# Block headers and the block index

A block index entry holds its own fields and two pointers. A pointer is the entry
it points at, and `null` is the null pointer, so two pointers are equal exactly
when the entries and everything below them are.
-/

namespace FullNode

structure CBlockHeader where
  nVersion : BitVec 32
  hashPrevBlock : Uint256
  hashMerkleRoot : Uint256
  nTime : Uint32
  nBits : Uint32
  nNonce : Uint32
  deriving DecidableEq

def CBlockHeader.getBlockTime (header : CBlockHeader) : Int := header.nTime.toNat

/-- The fields of a `CBlockIndex` that the modelled code reads. -/
structure BlockEntry where
  phashBlock : Uint256
  nHeight : Nat
  nChainWork : ArithUint256
  nVersion : BitVec 32
  hashMerkleRoot : Uint256
  nTime : Uint32
  nBits : Uint32
  nNonce : Uint32
  deriving DecidableEq

inductive CBlockIndex where
  | null
  | mk (entry : BlockEntry) (pprev pskip : CBlockIndex)
  deriving DecidableEq

namespace CBlockIndex

def isNull : CBlockIndex → Bool
  | null => true
  | mk .. => false

def pprev : CBlockIndex → CBlockIndex
  | null => null
  | mk _ pprev _ => pprev

/-- The fields behind a pointer, never read through a null one. -/
def entry : CBlockIndex → BlockEntry
  | null => ⟨0, 0, 0, 0, 0, 0, 0, 0⟩
  | mk entry _ _ => entry

def nHeight (b : CBlockIndex) : Nat := b.entry.nHeight
def nBits (b : CBlockIndex) : Uint32 := b.entry.nBits
def getBlockTime (b : CBlockIndex) : Int := b.entry.nTime.toNat
def getBlockHash (b : CBlockIndex) : Uint256 := b.entry.phashBlock

variable (e : BlockEntry)

variable (p s : CBlockIndex)

@[simp] theorem nHeight_mk : (mk e p s).nHeight = e.nHeight := rfl
@[simp] theorem nBits_mk : (mk e p s).nBits = e.nBits := rfl
@[simp] theorem pprev_mk : (mk e p s).pprev = p := rfl
@[simp] theorem getBlockTime_mk : (mk e p s).getBlockTime = e.nTime.toNat := rfl

def getBlockHeader (b : CBlockIndex) : CBlockHeader where
  nVersion := b.entry.nVersion
  hashPrevBlock := if b.pprev.isNull then 0 else b.pprev.getBlockHash
  hashMerkleRoot := b.entry.hashMerkleRoot
  nTime := b.entry.nTime
  nBits := b.entry.nBits
  nNonce := b.entry.nNonce

/-! ## Median time -/

def nMedianTimeSpan : Nat := 11

def pastTimes : Nat → CBlockIndex → List Int
  | 0, _ => []
  | _, null => []
  | n + 1, mk e pprev _ => (e.nTime.toNat : Int) :: pastTimes n pprev

def getMedianTimePast (b : CBlockIndex) : Int :=
  let times := (pastTimes nMedianTimeSpan b).insertionSort (· ≤ ·)
  times.getD (times.length / 2) 0

/-! ## Ancestors -/

def invertLowestOne (n : Nat) : Nat := n &&& (n - 1)

def getSkipHeight (height : Nat) : Nat :=
  if height < 2 then 0
  else if height &&& 1 ≠ 0 then invertLowestOne (invertLowestOne (height - 1)) + 1
  else invertLowestOne height

/-- `GetAncestor` follows `pskip` unless `pprev->pskip` is better. -/
def followsSkip (height heightWalk : Nat) : Bool :=
  let heightSkip := getSkipHeight heightWalk
  let heightSkipPrev := getSkipHeight (heightWalk - 1)
  heightSkip == height ||
    (heightSkip > height && !(heightSkipPrev + 2 < heightSkip && heightSkipPrev ≥ height))

def ancestorWalk (height : Nat) : CBlockIndex → Nat → Checked CBlockIndex
  | null, _ => .error .assertion
  | mk e pprev pskip, heightWalk =>
    if heightWalk > height then
      if !pskip.isNull && followsSkip height heightWalk then
        ancestorWalk height pskip (getSkipHeight heightWalk)
      else do
        check (!pprev.isNull)
        ancestorWalk height pprev (heightWalk - 1)
    else .ok (mk e pprev pskip)

def getAncestor (b : CBlockIndex) (height : Int) : Checked CBlockIndex :=
  if height > b.nHeight ∨ height < 0 then .ok null
  else ancestorWalk height.toNat b b.nHeight

def buildSkip (nHeight : Nat) (pprev : CBlockIndex) : Checked CBlockIndex :=
  if pprev.isNull then .ok null else pprev.getAncestor (getSkipHeight nHeight)

/-- Every entry is above its parent, with the `pskip` of `BuildSkip`. -/
def Linked : CBlockIndex → Prop
  | null => True
  | mk e pprev pskip =>
    Linked pprev ∧ e.nHeight = (if pprev.isNull then 0 else pprev.nHeight + 1) ∧ buildSkip e.nHeight pprev = .ok pskip

def ancestor (height : Nat) : CBlockIndex → CBlockIndex
  | null => null
  | mk e pprev pskip => if e.nHeight ≤ height then mk e pprev pskip else ancestor height pprev

theorem invertLowestOne_le (n : Nat) : invertLowestOne n ≤ n - 1 := Nat.and_le_right

theorem getSkipHeight_lt (height : Nat) (h : 0 < height) : getSkipHeight height < height := by
  unfold getSkipHeight
  have h1 := invertLowestOne_le height
  have h2 := invertLowestOne_le (height - 1)
  have h3 := invertLowestOne_le (invertLowestOne (height - 1))
  split
  · omega
  · split <;> omega

theorem Linked.parent {e : BlockEntry} {p s : CBlockIndex} (h : Linked (mk e p s)) : Linked p := h.1

theorem ancestor_self (b : CBlockIndex) (height : Nat) (h : b.nHeight ≤ height) : b.ancestor height = b := by
  cases b with
  | null => rfl
  | mk e p s => exact if_pos h

theorem ancestor_mk (height : Nat) (h : height < e.nHeight) :
    (mk e p s).ancestor height = p.ancestor height := if_neg (by omega)

variable {b : CBlockIndex} {height : Nat}

theorem Linked.ancestor_spec (hb : Linked b) (hne : b ≠ null) (h : height ≤ b.nHeight) :
    b.ancestor height ≠ null ∧ (b.ancestor height).nHeight = height ∧ Linked (b.ancestor height) := by
  induction b with
  | null => exact absurd rfl hne
  | mk e p s ihp _ =>
    rcases Nat.lt_or_ge height e.nHeight with hlt | hge
    · rw [ancestor_mk e p s height hlt]
      have hheight := hb.2.1
      cases p with
      | null => simp [isNull] at hheight; omega
      | mk e' p' s' =>
        simp only [isNull, nHeight_mk, Bool.false_eq_true, if_false] at hheight
        exact ihp hb.1 (by simp) (by simp only [nHeight_mk]; omega)
    · rw [ancestor_self _ _ hge]
      exact ⟨by simp, le_antisymm hge h, hb⟩

theorem ancestor_ancestor (b : CBlockIndex) {i j : Nat} (h : i ≤ j) : (b.ancestor j).ancestor i = b.ancestor i := by
  induction b with
  | null => rfl
  | mk e p s ihp _ =>
    rcases Nat.lt_or_ge j e.nHeight with hlt | hge
    · rw [ancestor_mk e p s j hlt, ihp, ancestor_mk e p s i (by omega)]
    · rw [ancestor_self (mk e p s) j hge]

theorem isNull_iff (b : CBlockIndex) : b.isNull = true ↔ b = null := by cases b <;> simp [isNull]

/-- The loop ends at the ancestor, whichever pointers it follows. -/
theorem Linked.ancestorWalk_eq (hb : Linked b) (hne : b ≠ null)
    (h : height ≤ b.nHeight) : ancestorWalk height b b.nHeight = .ok (b.ancestor height) := by
  induction b generalizing height with
  | null => exact absurd rfl hne
  | mk e p s ihp ihs =>
    obtain ⟨hp, hheight, hskip⟩ := hb
    simp only [nHeight_mk] at h ⊢
    rcases Nat.lt_or_ge height e.nHeight with hlt | hge
    · have hpne : p ≠ null := by
        rintro rfl
        simp [isNull] at hheight
        omega
      have hpn : p.isNull = false := by simpa using mt (isNull_iff p).mp hpne
      rw [hpn, if_neg (by simp)] at hheight
      rw [ancestor_mk e p s height hlt, ancestorWalk, if_pos hlt]
      split
      · next hfollow =>
        -- `pskip` is the parent's ancestor at the skip height, which is not below `height`.
        simp only [Bool.and_eq_true, Bool.not_eq_true'] at hfollow
        have hle : height ≤ getSkipHeight e.nHeight := by
          have := hfollow.2
          simp only [followsSkip, Bool.or_eq_true, beq_iff_eq, Bool.and_eq_true, decide_eq_true_eq] at this
          omega
        have hskip' : getSkipHeight e.nHeight ≤ p.nHeight := by
          have := getSkipHeight_lt e.nHeight (by omega)
          omega
        have hs : s = p.ancestor (getSkipHeight e.nHeight) := by
          rw [buildSkip, hpn, if_neg (by simp), getAncestor, if_neg (by omega), Int.toNat_natCast,
            ihp hp hpne hskip'] at hskip
          exact (Except.ok.inj hskip).symm
        obtain ⟨hsne, hsh, hsl⟩ := hp.ancestor_spec hpne hskip'
        rw [← hs] at hsne hsh hsl
        have hwalk : ancestorWalk height s s.nHeight = .ok (s.ancestor height) :=
          ihs hsl hsne (by omega)
        rw [hsh] at hwalk
        rw [hwalk, hs, ancestor_ancestor p hle]
      · simp only [hpn, Bool.not_false, check_true]
        rw [show e.nHeight - 1 = p.nHeight by omega]
        exact ihp hp hpne (by omega)
    · rw [ancestor_self _ _ hge, ancestorWalk, if_neg (by omega)]

theorem Linked.getAncestor_eq (hb : Linked b) (hne : b ≠ null)
    (h : height ≤ b.nHeight) : b.getAncestor height = .ok (b.ancestor height) := by
  unfold getAncestor
  rw [if_neg (by omega), Int.toNat_natCast]
  exact hb.ancestorWalk_eq hne h

end CBlockIndex

end FullNode
