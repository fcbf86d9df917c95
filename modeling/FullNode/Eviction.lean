import FullNode.Lib.AssocMap
import FullNode.Lib.Loop
import FullNode.Lib.Sorting

/-!
# Which peer to evict

The sort is a parameter, since `std::sort` may put equal elements in any order, and so is the random position.
-/

namespace FullNode.Eviction

open List Sorter

inductive Network where
  | unroutable
  | ipv4
  | ipv6
  | onion
  | i2p
  | cjdns
  | internal
  | max
  deriving DecidableEq

inductive ConnectionType where
  | inbound
  | outboundFullRelay
  | manual
  | feeler
  | blockRelay
  | addrFetch
  deriving DecidableEq

structure NodeEvictionCandidate where
  id : Int
  m_connected : Int
  m_min_ping_time : Int
  m_last_block_time : Int
  m_last_tx_time : Int
  fRelevantServices : Bool
  m_relay_txs : Bool
  fBloomFilter : Bool
  nKeyedNetGroup : Uint64
  prefer_evict : Bool
  m_is_local : Bool
  m_network : Network
  m_noban : Bool
  m_conn_type : ConnectionType

/-! ## The comparators -/

def reverseCompareNodeMinPingTime (a b : NodeEvictionCandidate) : Bool := a.m_min_ping_time > b.m_min_ping_time

def reverseCompareNodeTimeConnected (a b : NodeEvictionCandidate) : Bool := a.m_connected > b.m_connected

def compareNetGroupKeyed (a b : NodeEvictionCandidate) : Bool := a.nKeyedNetGroup < b.nKeyedNetGroup

def compareNodeBlockTime (a b : NodeEvictionCandidate) : Bool :=
  if a.m_last_block_time ≠ b.m_last_block_time then a.m_last_block_time < b.m_last_block_time
  else if a.fRelevantServices ≠ b.fRelevantServices then b.fRelevantServices
  else a.m_connected > b.m_connected

def compareNodeTXTime (a b : NodeEvictionCandidate) : Bool :=
  if a.m_last_tx_time ≠ b.m_last_tx_time then a.m_last_tx_time < b.m_last_tx_time
  else if a.m_relay_txs ≠ b.m_relay_txs then b.m_relay_txs
  else if a.fBloomFilter ≠ b.fBloomFilter then a.fBloomFilter
  else a.m_connected > b.m_connected

def compareNodeBlockRelayOnlyTime (a b : NodeEvictionCandidate) : Bool :=
  if a.m_relay_txs ≠ b.m_relay_txs then a.m_relay_txs
  else if a.m_last_block_time ≠ b.m_last_block_time then a.m_last_block_time < b.m_last_block_time
  else if a.fRelevantServices ≠ b.fRelevantServices then b.fRelevantServices
  else a.m_connected > b.m_connected

def compareNodeNetworkTime (is_local : Bool) (network : Network) (a b : NodeEvictionCandidate) : Bool :=
  if is_local ∧ a.m_is_local ≠ b.m_is_local then b.m_is_local
  else if decide (a.m_network = network) ≠ decide (b.m_network = network) then b.m_network = network
  else a.m_connected > b.m_connected

/-! Each one compares by a key, and that makes it a strict weak order. -/

section Keys

variable (a b : NodeEvictionCandidate)

def blockTimeKey : ℤ ×ₗ Bool ×ₗ ℤ := toLex (a.m_last_block_time, toLex (a.fRelevantServices, -a.m_connected))

def txTimeKey : ℤ ×ₗ Bool ×ₗ Bool ×ₗ ℤ :=
  toLex (a.m_last_tx_time, toLex (a.m_relay_txs, toLex (!a.fBloomFilter, -a.m_connected)))

def networkTimeKey (is_local : Bool) (network : Network) : Bool ×ₗ Bool ×ₗ ℤ :=
  toLex (is_local && a.m_is_local, toLex (decide (a.m_network = network), -a.m_connected))

theorem compareNodeBlockTime_iff : compareNodeBlockTime a b = true ↔ blockTimeKey a < blockTimeKey b := by
  simp only [compareNodeBlockTime, blockTimeKey, Prod.Lex.toLex_lt_toLex, Bool.lt_iff]
  grind

theorem compareNodeTXTime_iff : compareNodeTXTime a b = true ↔ txTimeKey a < txTimeKey b := by
  simp only [compareNodeTXTime, txTimeKey, Prod.Lex.toLex_lt_toLex, Bool.lt_iff]
  grind

theorem compareNodeBlockRelayOnlyTime_iff : compareNodeBlockRelayOnlyTime a b = true ↔
    toLex (!a.m_relay_txs, blockTimeKey a) < toLex (!b.m_relay_txs, blockTimeKey b) := by
  simp only [compareNodeBlockRelayOnlyTime, blockTimeKey, Prod.Lex.toLex_lt_toLex, Bool.lt_iff]
  grind

theorem compareNodeNetworkTime_iff (is_local : Bool) (network : Network) :
    compareNodeNetworkTime is_local network a b = true ↔
      networkTimeKey a is_local network < networkTimeKey b is_local network := by
  simp only [compareNodeNetworkTime, networkTimeKey, Prod.Lex.toLex_lt_toLex, Bool.lt_iff]
  grind

end Keys

theorem reverseCompareNodeMinPingTime_strictWeak : StrictWeak reverseCompareNodeMinPingTime :=
  .of_key (fun a => -a.m_min_ping_time) fun a b => by simp [reverseCompareNodeMinPingTime]

theorem reverseCompareNodeTimeConnected_strictWeak : StrictWeak reverseCompareNodeTimeConnected :=
  .of_key (fun a => -a.m_connected) fun a b => by simp [reverseCompareNodeTimeConnected]

theorem compareNetGroupKeyed_strictWeak : StrictWeak compareNetGroupKeyed :=
  .of_key (fun a => a.nKeyedNetGroup.toNat) fun a b => by simp [compareNetGroupKeyed, BitVec.lt_def]

theorem compareNodeBlockTime_strictWeak : StrictWeak compareNodeBlockTime :=
  .of_key blockTimeKey compareNodeBlockTime_iff

theorem compareNodeTXTime_strictWeak : StrictWeak compareNodeTXTime :=
  .of_key txTimeKey compareNodeTXTime_iff

theorem compareNodeBlockRelayOnlyTime_strictWeak : StrictWeak compareNodeBlockRelayOnlyTime :=
  .of_key (fun a => toLex (!a.m_relay_txs, blockTimeKey a)) compareNodeBlockRelayOnlyTime_iff

theorem compareNodeNetworkTime_strictWeak (is_local : Bool) (network : Network) :
    StrictWeak (compareNodeNetworkTime is_local network) :=
  .of_key (networkTimeKey · is_local network) fun a b => compareNodeNetworkTime_iff a b is_local network

/-! ## The passes -/

def protectNoBanConnections (l : List NodeEvictionCandidate) : List NodeEvictionCandidate :=
  l.filter fun n => !n.m_noban

def protectOutboundConnections (l : List NodeEvictionCandidate) : List NodeEvictionCandidate :=
  l.filter fun n => !decide (n.m_conn_type ≠ .inbound)

structure Net where
  is_local : Bool
  id : Network
  count : Nat

def Net.has (n : Net) (c : NodeEvictionCandidate) : Bool := if n.is_local then c.m_is_local else c.m_network = n.id

@[simp] theorem Net.has_count (n : Net) (count : Nat) : Net.has { n with count } = n.has := rfl

/-- A difference of sizes, which stops where `size_t` would wrap. -/
def sizeSub (a b : Nat) : Checked Nat := if b ≤ a then .ok (a - b) else .error .overflow

theorem sizeSub_of_le {a b : Nat} (h : b ≤ a) : sizeSub a b = .ok (a - b) := if_pos h

/-- What the loops of `ProtectEvictionCandidatesByRatio` change. -/
structure Ratio where
  eviction_candidates : List NodeEvictionCandidate
  networks : List Net
  num_protected : Nat
  protected_at_least_one : Bool := false

variable (s : Sorter NodeEvictionCandidate)

def protectNetworks (protect_per_network max_protect_by_network : Nat) : List Net → Ratio → Checked Ratio
  | [], r => .ok r
  | n :: networks, r => do
    if n.count = 0 then
      protectNetworks protect_per_network max_protect_by_network networks { r with networks := r.networks ++ [n] }
    else
      let before := r.eviction_candidates.length
      let eviction_candidates :=
        s.eraseLast (compareNodeNetworkTime n.is_local n.id) protect_per_network n.has r.eviction_candidates
      let after := eviction_candidates.length
      let r := { r with eviction_candidates }
      if before > after then
        let delta := before - after
        let r := { r with protected_at_least_one := true, num_protected := r.num_protected + delta }
        if r.num_protected ≥ max_protect_by_network then
          return { r with networks := r.networks ++ n :: networks }
        let count ← sizeSub n.count delta
        protectNetworks protect_per_network max_protect_by_network networks
          { r with networks := r.networks ++ [{ n with count }] }
      else
        protectNetworks protect_per_network max_protect_by_network networks { r with networks := r.networks ++ [n] }

def protectRound (max_protect_by_network : Nat) (r : Ratio) : Checked (Next Ratio) := do
  if r.num_protected < max_protect_by_network then
    let num_networks := r.networks.countP fun n => n.count ≠ 0
    if num_networks = 0 then return .done r
    let disadvantaged_to_protect ← sizeSub max_protect_by_network r.num_protected
    let protect_per_network := max (disadvantaged_to_protect / num_networks) 1
    let r ← protectNetworks s protect_per_network max_protect_by_network r.networks
      { r with networks := [], protected_at_least_one := false }
    if !r.protected_at_least_one then return .done r
    return .again r
  else return .done r

/-- The disadvantaged networks, those with fewer candidates first. -/
def countNetworks (eviction_candidates : List NodeEvictionCandidate) : List Net :=
  let networks : List Net := [⟨false, .cjdns, 0⟩, ⟨false, .i2p, 0⟩, ⟨true, .max, 0⟩, ⟨false, .onion, 0⟩]
  (networks.map fun n => { n with count := eviction_candidates.countP n.has }).insertionSort
    fun a b => ¬ b.count < a.count

def protectEvictionCandidatesByRatio (eviction_candidates : List NodeEvictionCandidate) :
    Checked (List NodeEvictionCandidate) := do
  let initial_size := eviction_candidates.length
  let total_protect_size := initial_size / 2
  let max_protect_by_network := total_protect_size / 2
  let r ← loop (protectRound s max_protect_by_network) (max_protect_by_network + 1)
    { eviction_candidates, networks := countNetworks eviction_candidates, num_protected := 0 }
  let erased ← sizeSub initial_size r.eviction_candidates.length
  check (r.num_protected = erased)
  let remaining_to_protect ← sizeSub total_protect_size r.num_protected
  return s.eraseLast reverseCompareNodeTimeConnected remaining_to_protect (fun _ => true) r.eviction_candidates

/-! ## The network group with the most connections -/

structure Groups where
  /-- Not set before the first candidate. -/
  naMostConnections : Option Uint64 := none
  /-- An `unsigned int`. -/
  nMostConnections : Nat := 0
  nMostConnectionsTime : Int := 0
  mapNetGroupNodes : AssocMap Uint64 (List NodeEvictionCandidate) := ∅

def Groups.add (g : Groups) (node : NodeEvictionCandidate) : Groups :=
  let group := (g.mapNetGroupNodes.lookup node.nKeyedNetGroup).getD [] ++ [node]
  let grouptime := (group.headD node).m_connected
  let g := { g with mapNetGroupNodes := g.mapNetGroupNodes.insert node.nKeyedNetGroup group }
  if group.length > g.nMostConnections ∨
      (group.length = g.nMostConnections ∧ grouptime > g.nMostConnectionsTime) then
    { g with
      nMostConnections := group.length % 2 ^ 32
      nMostConnectionsTime := grouptime
      naMostConnections := some node.nKeyedNetGroup }
  else g

def frontOfMostConnected (eviction_candidates : List NodeEvictionCandidate) : Checked Int :=
  let g := eviction_candidates.foldl Groups.add {}
  match (g.naMostConnections.bind g.mapNetGroupNodes.lookup).bind List.head? with
  | none => .error .badIterator
  | some n => .ok n.id

/-! ## The selection -/

/-- The end of `SelectNodeToEvict`, with the candidates left. -/
def evictFrom (l : List NodeEvictionCandidate) (force_evict : Option Int) : Checked (Option Int) :=
  if l.isEmpty then return force_evict
  else do
    let l := if l.any (·.prefer_evict) then l.filter (·.prefer_evict) else l
    let id ← frontOfMostConnected l
    return some id

def bestPasses : List (Sorter.Pass NodeEvictionCandidate) :=
  [{ lt := compareNetGroupKeyed, k := 4 },
   { lt := reverseCompareNodeMinPingTime, k := 8 },
   { lt := compareNodeTXTime, k := 4 },
   { lt := compareNodeBlockRelayOnlyTime, k := 8, pred := fun n => !n.m_relay_txs && n.fRelevantServices },
   { lt := compareNodeBlockTime, k := 4 }]

/-- `randrange n` is what `FastRandomContext().randrange(n)` gives. -/
def selectNodeToEvict (randrange : (n : Nat) → [NeZero n] → Fin n) (vEvictionCandidates : List NodeEvictionCandidate)
    (force : Bool) : Checked (Option Int) :=
  match protectOutboundConnections (protectNoBanConnections vEvictionCandidates) with
  | [] => .ok none
  | first :: rest => do
    let randpos := randrange (rest.length + 1)
    let force_evict := if force then some ((first :: rest).get randpos).id else none
    let l ← protectEvictionCandidatesByRatio s (s.erasePasses bestPasses (first :: rest))
    evictFrom l force_evict

/-! ## The share by ratio -/

variable {s} {l initial : List NodeEvictionCandidate} {r : Ratio} {per most : Nat}

theorem eraseLast_network (n : Net) (per : Nat) (l : List NodeEvictionCandidate) :
    ∃ l' delta, s.eraseLast (compareNodeNetworkTime n.is_local n.id) per n.has l = l' ∧ l'.Subperm l ∧ delta ≤ per ∧
      l'.length + delta = l.length ∧ l'.countP n.has + delta = l.countP n.has := by
  obtain ⟨erased, hperm, hper, hhas⟩ :=
    eraseLast_perm (s := s) (compareNodeNetworkTime_strictWeak n.is_local n.id) per n.has l
  refine ⟨_, erased.length, rfl, hperm.subperm_left.mp (sublist_append_left _ _).subperm, hper, ?_, ?_⟩
  · rw [← length_append, hperm.length_eq]
  · rw [← hperm.countP_eq, countP_append, countP_eq_length.mpr hhas]

/-- A network counts at least its candidates that are left. -/
def Covers (l : List NodeEvictionCandidate) (networks : List Net) : Prop := ∀ n ∈ networks, l.countP n.has ≤ n.count

variable {networks : List Net} {num_protected : Nat} {n : NodeEvictionCandidate} {g : Groups}

theorem Covers.subperm {l' : List NodeEvictionCandidate} (h : Covers l networks)
    (hsub : l'.Subperm l) : Covers l' networks :=
  fun n hn => (hsub.countP_le _).trans (h n hn)

theorem Covers.append {networks' : List Net} (h : Covers l networks) (h' : Covers l networks') :
    Covers l (networks ++ networks') := by
  intro n hn
  rcases mem_append.mp hn with hn | hn
  · exact h n hn
  · exact h' n hn

theorem Covers.one {n : Net} (h : l.countP n.has ≤ n.count) : Covers l [n] := by
  intro n' hn'
  rw [mem_singleton.mp hn']
  exact h

structure Ratio.Inv (initial : List NodeEvictionCandidate) (most : Nat) (r : Ratio) : Prop where
  sub : r.eviction_candidates.Subperm initial
  protects : r.eviction_candidates.length + r.num_protected = initial.length
  le : r.num_protected ≤ most
  covers : Covers r.eviction_candidates r.networks

/-- There is room for `per` of each network, or the loop stops in time. -/
def Room (per most : Nat) (networks : List Net) (num_protected : Nat) : Prop :=
  (per = 1 ∧ num_protected < most) ∨ num_protected + (networks.countP fun n => n.count ≠ 0) * per ≤ most

theorem Room.skip {n : Net} (h : Room per most (n :: networks) num_protected) :
    Room per most networks num_protected := by
  rcases h with h | h
  · exact .inl h
  · right
    rw [countP_cons, Nat.add_mul] at h
    omega

theorem Room.take {n : Net} {delta : Nat} (hn : n.count ≠ 0) (hdelta : delta ≤ per)
    (h : Room per most (n :: networks) num_protected) :
    num_protected + delta ≤ most ∧ (num_protected + delta < most → Room per most networks (num_protected + delta)) := by
  rcases h with ⟨hone, _⟩ | h
  · exact ⟨by omega, fun hlt' => .inl ⟨hone, hlt'⟩⟩
  · rw [countP_cons, if_pos (by simpa using hn), Nat.add_mul] at h
    exact ⟨by omega, fun _ => .inr (by omega)⟩

theorem room_of_share (networks : List Net) (h : num_protected < most) :
    Room (max ((most - num_protected) / networks.countP fun n => n.count ≠ 0) 1) most networks num_protected := by
  have hshare := Nat.mul_div_le (most - num_protected) (networks.countP fun n => n.count ≠ 0)
  rcases Nat.eq_zero_or_pos ((most - num_protected) / networks.countP fun n => n.count ≠ 0) with hzero | hpos
  · exact .inl ⟨by rw [hzero]; rfl, h⟩
  · right
    rw [max_eq_left hpos]
    omega

theorem protectNetworks_spec (hr : r.Inv initial most) (hcovers : Covers r.eviction_candidates networks)
    (hroom : Room per most networks r.num_protected) :
    ∃ r', protectNetworks s per most networks r = .ok r' ∧ r'.Inv initial most ∧ r.num_protected ≤ r'.num_protected ∧
      (r'.protected_at_least_one = true → r.protected_at_least_one = true ∨ r.num_protected < r'.num_protected) := by
  induction networks generalizing r with
  | nil => exact ⟨r, rfl, hr, le_refl _, .inl⟩
  | cons n networks ih =>
    have hn := hcovers n mem_cons_self
    have hrest : Covers r.eviction_candidates networks := fun n hn => hcovers n (mem_cons_of_mem _ hn)
    rw [protectNetworks]
    split
    · exact ih (r := { r with networks := r.networks ++ [n] })
        { hr with covers := hr.covers.append (.one hn) } hrest hroom.skip
    · next hcount =>
      obtain ⟨l, delta, hl, hsub, hper, _, _⟩ := eraseLast_network (s := s) n per r.eviction_candidates
      obtain ⟨hmost, hroom'⟩ := hroom.take hcount hper
      have hprotects := hr.protects
      have hcovers' := hr.covers.subperm hsub
      have hrest' := hrest.subperm hsub
      have hdelta : r.eviction_candidates.length - l.length = delta := by omega
      simp only [hl, hdelta]
      split
      · split
        · refine ⟨_, rfl, ⟨hsub.trans hr.sub, ?_, hmost, ?_⟩, Nat.le_add_right _ _, fun _ => .inr ?_⟩
          · simp only
            omega
          · exact hcovers'.append (.append (.one (by omega)) hrest')
          · simp only
            omega
        · rw [sizeSub_of_le (by omega)]
          have hone : Covers l [{ n with count := n.count - delta }] := .one (by simp only [Net.has_count]; omega)
          obtain ⟨r', hr', hinv, hle, -⟩ := ih (r := ⟨l, r.networks ++ [{ n with count := n.count - delta }],
            r.num_protected + delta, true⟩)
            ⟨hsub.trans hr.sub, by simp only; omega, hmost, hcovers'.append hone⟩ hrest' (hroom' (by omega))
          simp only at hle
          exact ⟨r', hr', hinv, by omega, fun _ => .inr (by omega)⟩
      · exact ih (r := { r with eviction_candidates := l, networks := r.networks ++ [n] })
          ⟨hsub.trans hr.sub, by simp only; omega, hr.le, hcovers'.append (.one (by omega))⟩ hrest' hroom.skip

/-! The whole loop. -/

theorem protectRound_spec (hr : r.Inv initial most) :
    (∃ r', protectRound s most r = .ok (.done r') ∧ r'.Inv initial most) ∨
    ∃ r', protectRound s most r = .ok (.again r') ∧ r'.Inv initial most ∧
      most - r'.num_protected < most - r.num_protected := by
  rw [protectRound]
  split
  · next hlt =>
    rw [sizeSub_of_le hlt.le]
    simp only [ok_bind]
    split
    · exact .inl ⟨r, rfl, hr⟩
    · obtain ⟨r', hr', hinv, -, hsome⟩ := protectNetworks_spec (s := s)
        (r := { r with networks := [], protected_at_least_one := false })
        { hr with covers := by simp [Covers] } hr.covers (room_of_share r.networks hlt)
      simp only [hr', ok_bind]
      split
      · exact .inl ⟨r', rfl, hinv⟩
      · next hone =>
        refine .inr ⟨r', rfl, hinv, ?_⟩
        have := hsome (by simpa using hone)
        simp only [Bool.false_eq_true, false_or] at *
        omega
  · exact .inl ⟨r, rfl, hr⟩

theorem countNetworks_covers : Covers l (countNetworks l) := by
  intro n hn
  obtain ⟨_, -, rfl⟩ := mem_map.mp ((perm_insertionSort _ _).mem_iff.mp hn)
  simp

theorem protectEvictionCandidatesByRatio_spec (l : List NodeEvictionCandidate) :
    ∃ rest, protectEvictionCandidatesByRatio s l = .ok rest ∧ rest.Subperm l ∧
      rest.length = l.length - l.length / 2 := by
  have hstart : Ratio.Inv l (l.length / 2 / 2) ⟨l, countNetworks l, 0, false⟩ :=
    ⟨.refl l, rfl, Nat.zero_le _, countNetworks_covers⟩
  obtain ⟨r, hr, hinv⟩ : ∃ r, loop (protectRound s (l.length / 2 / 2)) (l.length / 2 / 2 + 1)
      ⟨l, countNetworks l, 0, false⟩ = .ok r ∧ r.Inv l (l.length / 2 / 2) :=
    loop_spec (fun r : Ratio => l.length / 2 / 2 - r.num_protected) (fun _ hr => protectRound_spec hr) hstart (by simp)
  have hprotects := hinv.protects
  have hle := hinv.le
  have herased : l.length - r.eviction_candidates.length = r.num_protected := by omega
  rw [protectEvictionCandidatesByRatio, hr]
  simp only [ok_bind]
  rw [sizeSub_of_le (by omega), sizeSub_of_le (by omega), herased]
  refine ⟨_, by simp [check, ok_bind]; rfl,
    (eraseLast_subperm reverseCompareNodeTimeConnected_strictWeak _ _ _).trans hinv.sub, ?_⟩
  rw [length_eraseLast_all reverseCompareNodeTimeConnected_strictWeak _ _]
  omega

/-! ## The group found -/

/-- Every group has members of `l`, and if there are any one is chosen. -/
structure Groups.Inv (l : List NodeEvictionCandidate) (g : Groups) : Prop where
  members : ∀ k group, g.mapNetGroupNodes.lookup k = some group → group ≠ [] ∧ ∀ n ∈ group, n ∈ l
  chosen : (g.nMostConnections = 0 ∧ l = []) ∨ ∃ k, g.naMostConnections = some k ∧ (g.mapNetGroupNodes.lookup k).isSome

theorem Groups.Inv.add (h : g.Inv l) (node : NodeEvictionCandidate) : (g.add node).Inv (l ++ [node]) := by
  have hmembers : ∀ k group, (g.mapNetGroupNodes.insert node.nKeyedNetGroup
      ((g.mapNetGroupNodes.lookup node.nKeyedNetGroup).getD [] ++ [node])).lookup k = some group →
      group ≠ [] ∧ ∀ n ∈ group, n ∈ l ++ [node] := by
    intro k group hk
    rcases AssocMap.lookup_insert_cases hk with ⟨rfl, rfl⟩ | ⟨-, hk⟩
    · refine ⟨by simp, fun n hn => ?_⟩
      rcases mem_append.mp hn with hn | hn
      · cases hlook : g.mapNetGroupNodes.lookup node.nKeyedNetGroup with
        | none => simp [hlook] at hn
        | some group =>
          rw [hlook] at hn
          exact mem_append_left _ ((h.members _ _ hlook).2 n hn)
      · exact mem_append_right _ hn
    · obtain ⟨hne, hsub⟩ := h.members k group hk
      exact ⟨hne, fun n hn => mem_append_left _ (hsub n hn)⟩
  unfold Groups.add
  simp only
  split
  · exact ⟨hmembers, .inr ⟨_, rfl, by simp⟩⟩
  · next hmost =>
    refine ⟨hmembers, .inr ?_⟩
    rcases h.chosen with ⟨hzero, -⟩ | ⟨k, hk, hsome⟩
    · simp [hzero] at hmost
    · refine ⟨k, hk, ?_⟩
      by_cases heq : k = node.nKeyedNetGroup
      · rw [heq, AList.lookup_insert]
        rfl
      · simpa [AList.lookup_insert_ne heq] using hsome

theorem Groups.Inv.foldl (h : g.Inv initial) (l : List NodeEvictionCandidate) :
    (l.foldl Groups.add g).Inv (initial ++ l) := by
  induction l generalizing initial g with
  | nil => simpa using h
  | cons n l ih =>
    rw [append_cons]
    exact ih (h.add n)

theorem frontOfMostConnected_spec (hl : l ≠ []) : ∃ n ∈ l, frontOfMostConnected l = .ok n.id := by
  have hempty : Groups.Inv [] {} := ⟨by simp, .inl ⟨rfl, rfl⟩⟩
  have h := hempty.foldl l
  rw [frontOfMostConnected]
  generalize l.foldl Groups.add {} = g at h
  rcases h.chosen with ⟨-, hnil⟩ | ⟨k, hk, hsome⟩
  · exact absurd hnil hl
  · obtain ⟨group, hgroup⟩ := Option.isSome_iff_exists.mp hsome
    obtain ⟨hne, hsub⟩ := h.members k group hgroup
    obtain ⟨n, _, rfl⟩ := exists_cons_of_ne_nil hne
    exact ⟨n, hsub n mem_cons_self, by simp [hk, hgroup]⟩

theorem evictFrom_spec (l : List NodeEvictionCandidate) (force_evict : Option Int) :
    (l = [] ∧ evictFrom l force_evict = .ok force_evict) ∨ ∃ n ∈ l, evictFrom l force_evict = .ok (some n.id) := by
  unfold evictFrom
  split
  · next hempty => exact .inl ⟨by simpa using hempty, rfl⟩
  · next hne =>
    right
    simp only
    split
    · next hany =>
      obtain ⟨_, hm, hprefer⟩ := any_eq_true.mp hany
      obtain ⟨n, hn, hfront⟩ := frontOfMostConnected_spec
        (ne_nil_of_mem (mem_filter.mpr ⟨hm, hprefer⟩))
      exact ⟨n, (mem_filter.mp hn).1, by rw [hfront]; rfl⟩
    · obtain ⟨n, hn, hfront⟩ := frontOfMostConnected_spec (l := l) (by simpa using hne)
      exact ⟨n, hn, by rw [hfront]; rfl⟩

/-! ## Who is protected -/

theorem bestPasses_strictWeak : ∀ p ∈ bestPasses, StrictWeak p.lt := by
  simp only [bestPasses, forall_mem_cons]
  exact ⟨compareNetGroupKeyed_strictWeak, reverseCompareNodeMinPingTime_strictWeak, compareNodeTXTime_strictWeak,
    compareNodeBlockRelayOnlyTime_strictWeak, compareNodeBlockTime_strictWeak, by simp⟩

/-- Inbound peers without the no-ban permission. -/
def inbound (l : List NodeEvictionCandidate) : List NodeEvictionCandidate :=
  l.filter fun n => n.m_conn_type = .inbound ∧ n.m_noban = false

theorem protect_eq_inbound (l : List NodeEvictionCandidate) :
    protectOutboundConnections (protectNoBanConnections l) = inbound l := by
  rw [protectOutboundConnections, protectNoBanConnections, inbound, filter_filter]
  congr 1
  funext n
  cases n.m_noban <;> simp

/-- `n` is best among `l` by one of the criteria of the first passes. -/
def Best (l : List NodeEvictionCandidate) (n : NodeEvictionCandidate) : Prop :=
  ((l.map (·.nKeyedNetGroup)).Nodup ∧ Sorter.AmongHighest 4 (·.nKeyedNetGroup.toNat) l n) ∨
  ((l.map (·.m_min_ping_time)).Nodup ∧ Sorter.AmongHighest 8 (-·.m_min_ping_time) l n) ∨
  ((l.map (·.m_last_tx_time)).Nodup ∧ Sorter.AmongHighest 4 (·.m_last_tx_time) l n) ∨
  ((l.map (·.m_last_block_time)).Nodup ∧ Sorter.AmongHighest 4 (·.m_last_block_time) l n)

theorem not_best_of_mem (hn : n ∈ s.erasePasses bestPasses l) : ¬ Best l n := by
  rintro (⟨hkeys, h⟩ | ⟨hkeys, h⟩ | ⟨hkeys, h⟩ | ⟨hkeys, h⟩)
  · exact not_amongHighest_of_mem_erasePasses bestPasses_strictWeak (p := { lt := compareNetGroupKeyed, k := 4 })
      (by simp [bestPasses]) rfl (fun a b _ => by simp [compareNetGroupKeyed, BitVec.lt_def])
      (by simpa [Function.comp_def] using hkeys.map BitVec.toNat_injective) (.refl l) hn h
  · exact not_amongHighest_of_mem_erasePasses bestPasses_strictWeak
      (p := { lt := reverseCompareNodeMinPingTime, k := 8 }) (by simp [bestPasses]) rfl
      (fun a b _ => by simp [reverseCompareNodeMinPingTime])
        (by simpa [Function.comp_def] using hkeys.map neg_injective) (.refl l) hn h
  · exact not_amongHighest_of_mem_erasePasses bestPasses_strictWeak (p := { lt := compareNodeTXTime, k := 4 })
      (by simp [bestPasses]) rfl (fun a b hab => by simp [compareNodeTXTime, hab]) hkeys (.refl l) hn h
  · exact not_amongHighest_of_mem_erasePasses bestPasses_strictWeak (p := { lt := compareNodeBlockTime, k := 4 })
      (by simp [bestPasses]) rfl (fun a b hab => by simp [compareNodeBlockTime, hab]) hkeys (.refl l) hn h

theorem selectNodeToEvict_cases (randrange : (n : Nat) → [NeZero n] → Fin n) (l : List NodeEvictionCandidate)
    (force : Bool) :
    (inbound l = [] ∧ selectNodeToEvict s randrange l force = .ok none) ∨
    (∃ n ∈ s.erasePasses bestPasses (inbound l), selectNodeToEvict s randrange l force = .ok (some n.id)) ∨
    (inbound l ≠ [] ∧ (inbound l).length ≤ 28 ∧ ∃ n ∈ inbound l,
      selectNodeToEvict s randrange l force = .ok (if force then some n.id else none)) := by
  rw [selectNodeToEvict, protect_eq_inbound]
  generalize inbound l = l
  split
  · exact .inl ⟨rfl, rfl⟩
  · next first rest =>
    right
    obtain ⟨left, hleft, hsub, hlen⟩ :=
      protectEvictionCandidatesByRatio_spec (s := s) (s.erasePasses bestPasses (first :: rest))
    have hbest := length_erasePasses (s := s) (l := first :: rest) bestPasses_strictWeak
    rw [hleft]
    simp only [ok_bind]
    rcases evictFrom_spec left (if force then some ((first :: rest).get (randrange (rest.length + 1))).id else none)
      with ⟨hnil, hevict⟩ | ⟨n, hn, hevict⟩
    · right
      refine ⟨by simp, ?_, _, get_mem _ _, hevict⟩
      rw [hnil, length_nil] at hlen
      have hsum : (bestPasses.map (·.k)).sum = 28 := rfl
      omega
    · exact .inl ⟨n, hsub.subset hn, hevict⟩

theorem mem_inbound : n ∈ inbound l ↔ n ∈ l ∧ n.m_conn_type = .inbound ∧ n.m_noban = false := by
  simp [inbound]

/-- Promises are kept, a peer is found when one must be, and no count goes wrong. -/
theorem selectNodeToEvict_keeps_promises (s : Sorter NodeEvictionCandidate)
    (randrange : (n : Nat) → [NeZero n] → Fin n) (l : List NodeEvictionCandidate) (hids : (l.map (·.id)).Nodup) :
    (∀ force, ∃ evicted, selectNodeToEvict s randrange l force = .ok evicted ∧
      (∀ id, evicted = some id → ∃ n ∈ l, n.id = id) ∧
      (∀ n ∈ l, evicted = some n.id → n.m_conn_type = .inbound ∧ n.m_noban = false ∧
        (force = false → ¬ Best (inbound l) n)) ∧
      (29 ≤ (inbound l).length ∨ (inbound l ≠ [] ∧ force = true) → evicted.isSome)) ∧
    ∀ candidates, ∃ rest, protectEvictionCandidatesByRatio s candidates = .ok rest ∧ rest.Subperm candidates ∧
      rest.length = candidates.length - candidates.length / 2 := by
  refine ⟨fun force => ?_, protectEvictionCandidatesByRatio_spec⟩
  have hinj : ∀ n ∈ l, ∀ m ∈ l, n.id = m.id → n = m := fun n hn m hm => inj_on_of_nodup_map hids hn hm
  rcases selectNodeToEvict_cases (s := s) randrange l force with
    ⟨hnil, hselect⟩ | ⟨m, hm, hselect⟩ | ⟨hne, hfew, m, hm, hselect⟩
  · exact ⟨none, hselect, by simp, by simp, by simp [hnil]⟩
  · have hin := (erasePasses_subperm bestPasses_strictWeak).subset hm
    have hl := mem_inbound.mp hin
    refine ⟨_, hselect, fun id hid => ⟨m, hl.1, Option.some.inj hid⟩, fun n hn hid => ?_, fun _ => rfl⟩
    rw [hinj n hn m hl.1 (Option.some.inj hid).symm]
    exact ⟨hl.2.1, hl.2.2, fun _ => not_best_of_mem hm⟩
  · have hl := mem_inbound.mp hm
    cases force with
    | false =>
      refine ⟨_, hselect, by simp, by simp, ?_⟩
      rintro (h | ⟨-, h⟩)
      · omega
      · cases h
    | true =>
      refine ⟨_, hselect, fun id hid => ⟨m, hl.1, Option.some.inj hid⟩, fun n hn hid => ?_, fun _ => rfl⟩
      rw [hinj n hn m hl.1 (Option.some.inj hid).symm]
      exact ⟨hl.2.1, hl.2.2, by simp⟩

def inboundPeer : NodeEvictionCandidate where
  id := 1
  m_connected := 1700000000
  m_min_ping_time := 20000
  m_last_block_time := 0
  m_last_tx_time := 0
  fRelevantServices := true
  m_relay_txs := true
  fBloomFilter := false
  nKeyedNetGroup := 7
  prefer_evict := false
  m_is_local := false
  m_network := .ipv4
  m_noban := false
  m_conn_type := .inbound

def crowdPeer (i : Nat) : NodeEvictionCandidate :=
  { inboundPeer with
    id := i, m_connected := 1700000000 + i, m_min_ping_time := 20000 + i, m_last_tx_time := i, nKeyedNetGroup :=
      BitVec.ofNat 64 i }

def crowd : List NodeEvictionCandidate := (List.range 40).map crowdPeer

/-- The first peers ping well, and a later one goes. -/
theorem crowd_evicted : selectNodeToEvict .stable (fun _ => 0) crowd false = .ok (some (crowdPeer 31).id) ∧
    ¬ Best (inbound crowd) (crowdPeer 31) ∧ ∀ i < 8, Best (inbound crowd) (crowdPeer i) := by
  have hrun : selectNodeToEvict .stable (fun _ => 0) crowd false = .ok (some (crowdPeer 31).id) := by decide +kernel
  obtain ⟨evicted, hevicted, -, hpromise, -⟩ :=
    (selectNodeToEvict_keeps_promises .stable (fun _ => 0) crowd (by decide +kernel)).1 false
  obtain rfl : some (crowdPeer 31).id = evicted := Except.ok.inj (hrun.symm.trans hevicted)
  have hmem : ∀ i < 40, crowdPeer i ∈ crowd := fun i hi => mem_map.mpr ⟨i, mem_range.mpr hi, rfl⟩
  have hpings : ∀ i < 8, ((inbound crowd).filter fun n =>
      -(crowdPeer i).m_min_ping_time < -n.m_min_ping_time).length < 8 := by
    decide +kernel
  refine ⟨hrun, (hpromise _ (hmem 31 (by decide)) rfl).2.2 rfl,
    fun i hi => .inr (.inl ⟨by decide +kernel, ?_, hpings i hi⟩)⟩
  exact mem_inbound.mpr ⟨hmem i (by omega), rfl, rfl⟩

end FullNode.Eviction
