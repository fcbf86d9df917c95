import FullNode.Transaction
import FullNode.Lib.AssocMap

/-!
# The coins cache

`CCoinsViewCache` over other caches and a base. A `CoinsView` is a stack of caches, the
top one first. The list of flagged entries of the source is read off the map.
-/

namespace FullNode

structure Coin where
  out : CTxOut
  fCoinBase : Bool
  nHeight : Nat
  deriving DecidableEq

namespace Coin

def isSpent (c : Coin) : Bool := c.out.isNull

def empty : Coin := ⟨CTxOut.null, false, 0⟩

/-- What is left of a coin after `std::move`: the script is gone. -/
def movedFrom (c : Coin) : Coin := { c with out := { c.out with scriptPubKey := [] } }

def unspent (c : Coin) : Option Coin := if c.isSpent then none else some c

@[simp] theorem isSpent_empty : empty.isSpent = true := rfl
@[simp] theorem isSpent_movedFrom (c : Coin) : c.movedFrom.isSpent = c.isSpent := rfl

end Coin

/-! ## Memory -/

def prevectorSize : Nat := 36

/-- The bytes that a new copy of a script of size `n` allocates. -/
def copyAllocation (n : Nat) : Nat := if n ≤ prevectorSize then 0 else n

/-- The bytes after a script of size `n` is copied over `old`. -/
def assignAllocation (old n : Nat) : Nat :=
  if (if old = 0 then prevectorSize else old) < n then n else old

def mallocUsage (alloc : Nat) : Nat := if alloc = 0 then 0 else ((alloc + 31) >>> 4) <<< 4

/-! ## Entries -/

structure CCoinsCacheEntry where
  coin : Coin
  /-- The bytes allocated for the script. -/
  allocated : Nat
  dirty : Bool
  fresh : Bool
  deriving DecidableEq

def CCoinsCacheEntry.dynamicMemoryUsage (e : CCoinsCacheEntry) : Nat := mallocUsage e.allocated

def CCoinsCacheEntry.flagged (e : CCoinsCacheEntry) : Bool := e.dirty || e.fresh

structure CCoinsViewCache where
  hashBlock : Uint256
  cacheCoins : AssocMap COutPoint CCoinsCacheEntry
  cachedCoinsUsage : Int
  /-- Whether the counter, a `size_t`, was ever taken below zero. -/
  underflow : Bool
  deriving DecidableEq

namespace CCoinsViewCache

def new : CCoinsViewCache := ⟨0, ∅, 0, false⟩

def find (c : CCoinsViewCache) (outpoint : COutPoint) : Option CCoinsCacheEntry :=
  c.cacheCoins.lookup outpoint

def insert (c : CCoinsViewCache) (outpoint : COutPoint) (e : CCoinsCacheEntry) : CCoinsViewCache :=
  { c with cacheCoins := c.cacheCoins.insert outpoint e }

def erase (c : CCoinsViewCache) (outpoint : COutPoint) : CCoinsViewCache :=
  { c with cacheCoins := c.cacheCoins.erase outpoint }

def addUsage (c : CCoinsViewCache) (n : Nat) : CCoinsViewCache :=
  { c with cachedCoinsUsage := c.cachedCoinsUsage + n }

def subUsage (c : CCoinsViewCache) (n : Nat) : CCoinsViewCache :=
  { c with
    cachedCoinsUsage := c.cachedCoinsUsage - n
    underflow := c.underflow || decide (c.cachedCoinsUsage < n) }

variable (c : CCoinsViewCache)

@[simp] theorem find_addUsage (n : Nat) (o : COutPoint) : (c.addUsage n).find o = c.find o := rfl
@[simp] theorem find_subUsage (n : Nat) (o : COutPoint) : (c.subUsage n).find o = c.find o := rfl

variable (o : COutPoint)

@[simp] theorem find_new : new.find o = none := rfl

theorem find_insert (o' : COutPoint) (e : CCoinsCacheEntry) :
    (c.insert o e).find o' = if o' = o then some e else c.find o' := by
  unfold find insert
  split
  · next h => rw [h, AList.lookup_insert]
  · next h => rw [AList.lookup_insert_ne h]

theorem find_erase (o' : COutPoint) : (c.erase o).find o' = if o' = o then none else c.find o' := by
  unfold find erase
  split
  · next h => rw [h, AList.lookup_erase]
  · next h => rw [AList.lookup_erase_ne h]

@[simp] theorem find_insert_self (e : CCoinsCacheEntry) : (c.insert o e).find o = some e := by simp [find_insert]
@[simp] theorem find_erase_self : (c.erase o).find o = none := by simp [find_erase]

/-! ## One layer -/

/-- `FetchCoin` when the map has no entry stores the base's answer. -/
def fetched (c : CCoinsViewCache) (outpoint : COutPoint) : Option Coin → Option CCoinsCacheEntry × CCoinsViewCache
  | none => (none, c)
  | some coin =>
    let e : CCoinsCacheEntry :=
      { coin
        allocated := copyAllocation coin.out.scriptPubKey.length
        dirty := false
        fresh := coin.isSpent }
    (some e, (c.insert outpoint e).addUsage e.dynamicMemoryUsage)

def overwriteError : Fault :=
  .logicError "Attempted to overwrite an unspent coin (when possible_overwrite is false)"

/-- `AddCoin`, of a coin whose script has `allocated` bytes. -/
def addCoin (c : CCoinsViewCache) (outpoint : COutPoint) (coin : Coin) (allocated : Nat)
    (possibleOverwrite : Bool) : Except Fault Unit × CCoinsViewCache :=
  if coin.isSpent then (.error .assertion, c)
  else if isUnspendable coin.out.scriptPubKey then (.ok (), c)
  else
    match c.find outpoint with
    | none =>
      let e : CCoinsCacheEntry := { coin, allocated, dirty := true, fresh := !possibleOverwrite }
      (.ok (), (c.insert outpoint e).addUsage e.dynamicMemoryUsage)
    | some it =>
      let c := c.subUsage it.dynamicMemoryUsage
      if !possibleOverwrite && !it.coin.isSpent then (.error overwriteError, c)
      else
        -- A spent coin that is DIRTY was not flushed, so it must not become FRESH.
        let fresh := !possibleOverwrite && !it.dirty
        let e : CCoinsCacheEntry := { coin, allocated, dirty := true, fresh := it.fresh || fresh }
        (.ok (), (c.insert outpoint e).addUsage e.dynamicMemoryUsage)

def emplaceCoinInternalDANGER (c : CCoinsViewCache) (outpoint : COutPoint) (coin : Coin)
    (allocated : Nat) : CCoinsViewCache :=
  let c := c.addUsage (mallocUsage allocated)
  match c.find outpoint with
  | some _ => c
  | none => c.insert outpoint { coin, allocated, dirty := true, fresh := false }

/-- `SpendCoin` once the entry is found. -/
def spendEntry (c : CCoinsViewCache) (outpoint : COutPoint) (it : CCoinsCacheEntry) : CCoinsViewCache :=
  let c := c.subUsage it.dynamicMemoryUsage
  if it.fresh then c.erase outpoint
  else c.insert outpoint { coin := Coin.empty, allocated := 0, dirty := true, fresh := false }

def uncache (c : CCoinsViewCache) (outpoint : COutPoint) : CCoinsViewCache :=
  match c.find outpoint with
  | some it =>
    if !it.dirty && !it.fresh then (c.subUsage it.dynamicMemoryUsage).erase outpoint else c
  | none => c

/-! ## Writing to the layer below -/

/-- `NextAndMaybeErase`, after the receiver has seen the entry. -/
def nextAndMaybeErase (c : CCoinsViewCache) (willErase : Bool) (outpoint : COutPoint)
    (it : CCoinsCacheEntry) : CCoinsViewCache :=
  if willErase then c
  else if it.coin.isSpent then (c.subUsage it.dynamicMemoryUsage).erase outpoint
  else c.insert outpoint { it with dirty := false, fresh := false }

def moveOut (c : CCoinsViewCache) (outpoint : COutPoint) (it : CCoinsCacheEntry) : CCoinsViewCache :=
  c.insert outpoint { it with coin := it.coin.movedFrom, allocated := 0 }

def freshError : Fault := .logicError "FRESH flag misapplied to coin that exists in parent cache"

/-- One round of `BatchWrite`: `us` receives the entry `it` of `child`. -/
def batchWriteEntry (willErase : Bool) (s : CCoinsViewCache × CCoinsViewCache) (outpoint : COutPoint)
    (it : CCoinsCacheEntry) : Except Fault Unit × CCoinsViewCache × CCoinsViewCache :=
  let (us, child) := s
  if !it.dirty then (.ok (), us, child.nextAndMaybeErase willErase outpoint it)
  else
    let moves := willErase || it.coin.isSpent
    -- What the cursor leaves of the entry, moved from or not.
    let left := if moves then { it with coin := it.coin.movedFrom, allocated := 0 } else it
    let child' := if moves then child.moveOut outpoint it else child
    match us.find outpoint with
    | none =>
      if it.fresh && it.coin.isSpent then (.ok (), us, child.nextAndMaybeErase willErase outpoint it)
      else
        let allocated := if moves then it.allocated else copyAllocation it.coin.out.scriptPubKey.length
        let entry : CCoinsCacheEntry := { coin := it.coin, allocated, dirty := true, fresh := it.fresh }
        (.ok (), (us.insert outpoint entry).addUsage entry.dynamicMemoryUsage,
          child'.nextAndMaybeErase willErase outpoint left)
    | some itUs =>
      if it.fresh && !itUs.coin.isSpent then (.error freshError, us, child)
      else if itUs.fresh && it.coin.isSpent then
        (.ok (), (us.subUsage itUs.dynamicMemoryUsage).erase outpoint, child.nextAndMaybeErase willErase outpoint it)
      else
        let us := us.subUsage itUs.dynamicMemoryUsage
        let allocated := if moves then it.allocated
          else assignAllocation itUs.allocated it.coin.out.scriptPubKey.length
        let entry : CCoinsCacheEntry := { itUs with coin := it.coin, allocated, dirty := true }
        (.ok (), (us.insert outpoint entry).addUsage entry.dynamicMemoryUsage,
          child'.nextAndMaybeErase willErase outpoint left)

def flaggedEntries (c : CCoinsViewCache) : List (Σ _ : COutPoint, CCoinsCacheEntry) :=
  c.cacheCoins.entries.filter fun s => s.2.flagged

def batchWrite (us child : CCoinsViewCache)
    (willErase : Bool) : Except Fault Bool × CCoinsViewCache × CCoinsViewCache :=
  match AssocMap.forEach (batchWriteEntry willErase) child.flaggedEntries (us, child) with
  | (.error f, s) => (.error f, s)
  | (.ok (), us, child) => (.ok true, { us with hashBlock := child.hashBlock }, child)

end CCoinsViewCache

/-! ## A stack of layers -/

structure CoinsBase where
  hashBlock : Uint256
  coins : AssocMap COutPoint Coin
  deriving DecidableEq

/-- The base may refuse a `BatchWrite` at once, or fail at the end. -/
inductive BaseReply where
  | written
  | refused
  | failed (throws : Bool)
  deriving DecidableEq

def CoinsBase.batchWriteEntry (willErase : Bool) (s : CoinsBase × CCoinsViewCache)
    (outpoint : COutPoint) (it : CCoinsCacheEntry) : Except Fault Unit × CoinsBase × CCoinsViewCache :=
  let (base, child) := s
  let coins := if !it.dirty then base.coins
    else if it.coin.isSpent then base.coins.erase outpoint
    else base.coins.insert outpoint it.coin
  (.ok (), { base with coins }, child.nextAndMaybeErase willErase outpoint it)

def CoinsBase.batchWrite (base : CoinsBase) (child : CCoinsViewCache) (willErase : Bool)
    (reply : BaseReply) : Except Fault Bool × CoinsBase × CCoinsViewCache :=
  let s := (AssocMap.forEach (CoinsBase.batchWriteEntry willErase) child.flaggedEntries (base, child)).2
  match reply with
  | .written => (.ok true, { s.1 with hashBlock := child.hashBlock }, s.2)
  | .refused => (.ok false, base, child)
  | .failed false => (.ok false, base, s.2)
  | .failed true => (.error (.runtimeError "Fatal LevelDB error"), base, s.2)

structure CoinsView where
  caches : List CCoinsViewCache
  base : CoinsBase
  deriving DecidableEq

namespace CoinsView

def getCoinFrom (base : CoinsBase) (outpoint : COutPoint) : List CCoinsViewCache → Option Coin × List CCoinsViewCache
  | [] => (base.coins.lookup outpoint, [])
  | c :: cs =>
    match c.find outpoint with
    | some it => (it.coin.unspent, c :: cs)
    | none =>
      let (coin, cs') := getCoinFrom base outpoint cs
      let (it, c') := c.fetched outpoint coin
      (it.bind (·.coin.unspent), c' :: cs')

def getCoin (v : CoinsView) (outpoint : COutPoint) : Option Coin × CoinsView :=
  let (coin, caches) := getCoinFrom v.base outpoint v.caches
  (coin, { v with caches })

/-- `FetchCoin` of the top cache: its entry, if there is one now. -/
def fetchCoin (v : CoinsView) (outpoint : COutPoint) : Option CCoinsCacheEntry × CoinsView :=
  match v.caches with
  | [] => (none, v)
  | c :: cs =>
    match c.find outpoint with
    | some it => (some it, v)
    | none =>
      let (coin, cs') := getCoinFrom v.base outpoint cs
      let (it, c') := c.fetched outpoint coin
      (it, { v with caches := c' :: cs' })

def haveCoin (v : CoinsView) (outpoint : COutPoint) : Bool × CoinsView :=
  let (it, v) := v.fetchCoin outpoint
  (it.any (!·.coin.isSpent), v)

def accessCoin (v : CoinsView) (outpoint : COutPoint) : Coin × CoinsView :=
  let (it, v) := v.fetchCoin outpoint
  ((it.map (·.coin)).getD Coin.empty, v)

def onTop {α : Type} (v : CoinsView) (none : α) (f : CCoinsViewCache → α × CCoinsViewCache) : α × CoinsView :=
  match v.caches with
  | [] => (none, v)
  | c :: cs => let (r, c') := f c; (r, { v with caches := c' :: cs })

def addCoin (v : CoinsView) (outpoint : COutPoint) (coin : Coin) (allocated : Nat)
    (possibleOverwrite : Bool) : Except Fault Unit × CoinsView :=
  v.onTop (.ok ()) (·.addCoin outpoint coin allocated possibleOverwrite)

def emplaceCoinInternalDANGER (v : CoinsView) (outpoint : COutPoint) (coin : Coin) (allocated : Nat) : CoinsView :=
  (v.onTop () fun c => ((), c.emplaceCoinInternalDANGER outpoint coin allocated)).2

def uncache (v : CoinsView) (outpoint : COutPoint) : CoinsView :=
  (v.onTop () fun c => ((), c.uncache outpoint)).2

/-- The coin moved out, which is empty if the entry was spent. -/
def spendCoin (v : CoinsView) (outpoint : COutPoint) : Option Coin × CoinsView :=
  match v.fetchCoin outpoint with
  | (none, v) => (none, v)
  | (some it, v) => (some it.coin, (v.onTop () fun c => ((), c.spendEntry outpoint it)).2)

def setBestBlock (v : CoinsView) (hashBlock : Uint256) : CoinsView :=
  (v.onTop () fun c => ((), { c with hashBlock })).2

def bestBlockFrom (base : CoinsBase) : List CCoinsViewCache → Uint256 × List CCoinsViewCache
  | [] => (base.hashBlock, [])
  | c :: cs =>
    if c.hashBlock = 0 then
      let (hashBlock, cs') := bestBlockFrom base cs
      (hashBlock, { c with hashBlock } :: cs')
    else (c.hashBlock, c :: cs)

def getBestBlock (v : CoinsView) : Uint256 × CoinsView :=
  let (hashBlock, caches) := bestBlockFrom v.base v.caches
  (hashBlock, { v with caches })

/-- The top cache writes below. The second result is what it keeps. -/
def writeTop (v : CoinsView) (c : CCoinsViewCache) (cs : List CCoinsViewCache) (willErase : Bool)
    (reply : BaseReply) : Except Fault Bool × CCoinsViewCache × CoinsView :=
  match cs with
  | [] =>
    let (r, base, c) := v.base.batchWrite c willErase reply
    (r, c, { v with caches := [], base })
  | d :: ds =>
    let (r, d, c) := d.batchWrite c willErase
    (r, c, { v with caches := d :: ds })

def flush (v : CoinsView) (reply : BaseReply) : Except Fault Bool × CoinsView :=
  match v.caches with
  | [] => (.ok true, v)
  | c :: cs =>
    match v.writeTop c cs true reply with
    | (.error f, c, v) => (.error f, { v with caches := c :: v.caches })
    | (.ok fOk, c, v) =>
      let c := if fOk then { c with cacheCoins := ∅ } else c
      (.ok fOk, { v with caches := { c with cachedCoinsUsage := 0 } :: v.caches })

def syncError : Fault := .logicError "Not all unspent flagged entries were cleared"

def sync (v : CoinsView) (reply : BaseReply) : Except Fault Bool × CoinsView :=
  match v.caches with
  | [] => (.ok true, v)
  | c :: cs =>
    match v.writeTop c cs false reply with
    | (.error f, c, v) => (.error f, { v with caches := c :: v.caches })
    | (.ok fOk, c, v) =>
      let r := if fOk && !c.flaggedEntries.isEmpty then .error syncError else .ok fOk
      (r, { v with caches := c :: v.caches })

/-! ## Runs -/

inductive Op where
  | getCoin (outpoint : COutPoint)
  | haveCoin (outpoint : COutPoint)
  | accessCoin (outpoint : COutPoint)
  | addCoin (outpoint : COutPoint) (coin : Coin) (allocated : Nat) (possibleOverwrite : Bool)
  | emplaceCoinInternalDANGER (outpoint : COutPoint) (coin : Coin) (allocated : Nat)
  | spendCoin (outpoint : COutPoint)
  | uncache (outpoint : COutPoint)
  | sync (reply : BaseReply)
  | flush (reply : BaseReply)
  deriving DecidableEq

/-- An operation on the top: what it throws, and the view after. -/
def apply (v : CoinsView) : Op → Except Fault Unit × CoinsView
  | .getCoin o => (.ok (), (v.getCoin o).2)
  | .haveCoin o => (.ok (), (v.haveCoin o).2)
  | .accessCoin o => (.ok (), (v.accessCoin o).2)
  | .addCoin o coin allocated overwrite => v.addCoin o coin allocated overwrite
  | .emplaceCoinInternalDANGER o coin allocated => (.ok (), v.emplaceCoinInternalDANGER o coin allocated)
  | .spendCoin o => (.ok (), (v.spendCoin o).2)
  | .uncache o => (.ok (), v.uncache o)
  | .sync reply => let r := v.sync reply; (r.1.map fun _ => (), r.2)
  | .flush reply => let r := v.flush reply; (r.1.map fun _ => (), r.2)

/-- An operation on the cache at a position from the top. -/
def step (v : CoinsView) (layer : Nat) (op : Op) : Except Fault Unit × CoinsView :=
  let r := apply { v with caches := v.caches.drop layer } op
  (r.1, { r.2 with caches := v.caches.take layer ++ r.2.caches })

end CoinsView

end FullNode
