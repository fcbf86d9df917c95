import FullNode.Lib.AssocMap
import FullNode.Lib.Runs

/-! # The pool's registry of sessions -/

namespace FullNode.Pool

open List AList

/-- The first parameter. Python counts truth values as numbers. -/
inductive WorkerName where
  | null
  | number (n : Rat)
  | str (s : String)
  /-- A list or an object. It cannot be a key. -/
  | container (empty : Bool)
  deriving DecidableEq

namespace WorkerName

def hashable : WorkerName → Bool
  | container _ => false
  | _ => true

/-- What `if self.worker_name` reads. -/
def truthy : WorkerName → Bool
  | null => false
  | number n => n != 0
  | str s => s != ""
  | container empty => !empty

end WorkerName

structure StratumMiner where
  workerName : WorkerName := .null
  isOpen : Bool := true
  /-- An authorize has reached the registry. -/
  authorized : Bool := false
  deriving DecidableEq

structure Sessions where
  sessions : List StratumMiner := []
  miners : AssocMap WorkerName Nat := ∅
  deriving DecidableEq

inductive Event where
  | connect
  | authorize (id : Nat) (params : List WorkerName)
  | disconnect (id : Nat)

def requestedName (params : List WorkerName) : WorkerName := params.headD (.str "unknown")

namespace Sessions

variable {s : Sessions} {id : Nat} {miner : StratumMiner} {name : WorkerName}

def live (s : Sessions) (id : Nat) : Option StratumMiner := s.sessions[id]?.filter (·.isOpen)

def connect (s : Sessions) : Sessions := { s with sessions := s.sessions ++ [{}] }

/-- It raises when the name is no key. The name stays set. -/
def authorize (s : Sessions) (id : Nat) (miner : StratumMiner) (name : WorkerName) : Sessions :=
  if name.hashable then
    { sessions := s.sessions.set id { miner with workerName := name, authorized := true }
      miners := s.miners.insert name id }
  else { s with sessions := s.sessions.set id { miner with workerName := name } }

/-- The `finally` of `handle`. -/
def disconnect (s : Sessions) (id : Nat) (miner : StratumMiner) : Sessions where
  sessions := s.sessions.set id { miner with isOpen := false }
  miners := if miner.workerName.truthy && (s.miners.lookup miner.workerName).isSome
    then s.miners.erase miner.workerName else s.miners

def step (s : Sessions) : Event → Sessions
  | .connect => s.connect
  | .authorize id params =>
    match s.live id with
    | none => s
    | some miner => s.authorize id miner (requestedName params)
  | .disconnect id =>
    match s.live id with
    | none => s
    | some miner => s.disconnect id miner

def run (events : List Event) : Sessions := events.foldl step {}

def broadcastTo (s : Sessions) : List Nat := s.miners.entries.map (·.2)

/-- New jobs reach the open authorized sessions, and no closed one. -/
structure Exact (s : Sessions) : Prop where
  reached : ∀ id miner, s.live id = some miner → miner.authorized → id ∈ s.broadcastTo
  onlyOpen : ∀ id ∈ s.broadcastTo, (s.live id).isSome

def Spares (s : Sessions) (name : WorkerName) (id : Nat) : Prop :=
  ∀ other, s.miners.lookup name = some other → other ≠ id → ∃ name' ≠ name, s.miners.lookup name' = some other

/-- What a step may overwrite or delete, and must not leave behind. -/
def Meets (s : Sessions) : Event → Prop
  | .connect => True
  | .authorize id params =>
    ∀ miner, s.live id = some miner → (requestedName params).hashable → s.Spares (requestedName params) id
  | .disconnect id =>
    ∀ miner, s.live id = some miner → (∀ name, s.miners.lookup name = some id → name = miner.workerName ∧ name.truthy) ∧
      (miner.workerName.truthy → s.Spares miner.workerName id)

/-! ## Registered sessions -/

theorem mem_broadcastTo : id ∈ s.broadcastTo ↔ ∃ name, s.miners.lookup name = some id := by
  unfold broadcastTo
  rw [mem_map]
  constructor
  · rintro ⟨⟨name, id⟩, hmem, rfl⟩
    exact ⟨name, mem_lookup_iff.mpr hmem⟩
  · rintro ⟨name, hlookup⟩
    exact ⟨⟨name, id⟩, mem_lookup_iff.mp hlookup, rfl⟩

theorem live_spec : s.live id = some miner ↔ s.sessions[id]? = some miner ∧ miner.isOpen := by
  unfold live
  rw [Option.filter_eq_some_iff]

theorem live_lt (h : s.live id = some miner) : id < s.sessions.length :=
  (List.getElem?_eq_some_iff.mp (live_spec.mp h).1).1

theorem live_set {sessions : List StratumMiner} {miners : AssocMap WorkerName Nat} (hlt : id < sessions.length)
    (other : Nat) : live ⟨sessions.set id miner, miners⟩ other =
      if other = id then (if miner.isOpen then some miner else none) else live ⟨sessions, miners⟩ other := by
  unfold live
  simp only [getElem?_set]
  split
  · next h =>
    rw [if_pos h.symm]
    rfl
  · next h => rw [if_neg (Ne.symm h)]

def Marked (s : Sessions) : Prop :=
  ∀ name id, s.miners.lookup name = some id → ∃ miner, s.sessions[id]? = some miner ∧ miner.authorized

theorem Marked.live (h : s.Marked) (hexact : s.Exact) (hlookup : s.miners.lookup name = some id) :
    ∃ miner, s.live id = some miner ∧ miner.authorized := by
  obtain ⟨miner, hget, hauthorized⟩ := h name id hlookup
  obtain ⟨miner', hlive⟩ := Option.isSome_iff_exists.mp (hexact.onlyOpen id (mem_broadcastTo.mpr ⟨name, hlookup⟩))
  rw [(live_spec.mp hlive).1] at hget
  obtain rfl := Option.some.inj hget
  exact ⟨miner', hlive, hauthorized⟩

/-! ## One step -/

theorem authorize_live (h : s.live id = some miner) (name : WorkerName) (other : Nat) :
    (s.authorize id miner name).live other =
    if other = id then some { miner with workerName := name, authorized := name.hashable || miner.authorized }
      else s.live other := by
  have hopen : miner.isOpen = true := (live_spec.mp h).2
  unfold authorize
  split
  · next hname =>
    rw [live_set (live_lt h), hname]
    simp only [hopen]
    rfl
  · next hname =>
    rw [live_set (live_lt h), Bool.eq_false_iff.mpr hname]
    simp only [hopen]
    rfl

theorem authorize_lookup (name name' : WorkerName) : (s.authorize id miner name).miners.lookup name' =
    if name.hashable ∧ name' = name then some id else s.miners.lookup name' := by
  unfold authorize
  split
  · next hname =>
    by_cases h : name' = name
    · rw [if_pos ⟨hname, h⟩, h, lookup_insert]
    · rw [if_neg (fun hand => h hand.2), lookup_insert_ne h]
  · next hname => rw [if_neg (fun hand => hname hand.1)]

theorem disconnect_live (h : s.live id = some miner) (other : Nat) :
    (s.disconnect id miner).live other = if other = id then none else s.live other := by
  unfold disconnect
  rw [live_set (live_lt h)]
  rfl

theorem disconnect_lookup (name : WorkerName) : (s.disconnect id miner).miners.lookup name =
    if miner.workerName.truthy ∧ name = miner.workerName then none else s.miners.lookup name := by
  unfold disconnect
  simp only [Bool.and_eq_true]
  split
  · next h =>
    by_cases hname : name = miner.workerName
    · rw [if_pos ⟨h.1, hname⟩, hname, lookup_erase]
    · rw [if_neg (fun hand => hname hand.2), lookup_erase_ne hname]
  · next h =>
    split
    · next hand =>
      rw [hand.2]
      exact Option.not_isSome_iff_eq_none.mp fun hsome => h ⟨hand.1, hsome⟩
    · rfl

theorem connect_live (id : Nat) : s.connect.live id = if id = s.sessions.length then some {} else s.live id := by
  unfold connect live
  simp only [getElem?_append]
  split
  · next hlt => rw [if_neg (by omega)]
  · next hge =>
    split
    · next h =>
      rw [h, Nat.sub_self]
      rfl
    · next h => rw [getElem?_eq_none (by simp; omega), getElem?_eq_none (by omega)]

theorem connect_exact (h : s.Exact) : s.connect.Exact := by
  constructor
  · intro id miner hlive hauthorized
    rw [connect_live] at hlive
    split at hlive
    · cases hlive
      exact absurd hauthorized (by decide)
    · exact h.reached id miner hlive hauthorized
  · intro id hid
    rw [connect_live]
    split
    · rfl
    · exact h.onlyOpen id hid

/-- What holds of the others when a session and a name change. -/
theorem changed_exact {s' : Sessions} {entry : Option Nat} {changed : Prop} [Decidable changed]
    (hmarked : s.Marked) (h : s.Exact) (hlive : ∀ other, other ≠ id → s'.live other = s.live other)
    (hlookup : ∀ name', s'.miners.lookup name' = if changed ∧ name' = name then entry else s.miners.lookup name')
    (hentry : ∀ other, entry = some other → other = id) : s'.Exact ↔
      ((∀ miner, s'.live id = some miner → miner.authorized → id ∈ s'.broadcastTo) ∧
      (id ∈ s'.broadcastTo → (s'.live id).isSome)) ∧ (changed → s.Spares name id) := by
  constructor
  · intro hexact
    refine ⟨⟨hexact.reached id, hexact.onlyOpen id⟩, fun hchanged other hother hne => ?_⟩
    obtain ⟨miner, hopen, hauthorized⟩ := hmarked.live h hother
    obtain ⟨name', hname'⟩ :=
        mem_broadcastTo.mp (hexact.reached other miner ((hlive other hne).trans hopen) hauthorized)
    rw [hlookup] at hname'
    split at hname'
    · exact absurd (hentry other hname') hne
    · next hdiff => exact ⟨name', fun heq => hdiff ⟨hchanged, heq⟩, hname'⟩
  · rintro ⟨⟨hreached, honlyOpen⟩, hspares⟩
    constructor
    · intro other miner hopen hauthorized
      by_cases hne : other = id
      · exact hne ▸ hreached miner (hne ▸ hopen) hauthorized
      · rw [mem_broadcastTo]
        obtain ⟨name', hname'⟩ :=
            mem_broadcastTo.mp (h.reached other miner ((hlive other hne).symm.trans hopen) hauthorized)
        by_cases hand : changed ∧ name' = name
        · obtain ⟨other', hdiff, hother⟩ := hspares hand.1 other (hand.2 ▸ hname') hne
          exact ⟨other', by rw [hlookup, if_neg fun hand => hdiff hand.2, hother]⟩
        · exact ⟨name', by rw [hlookup, if_neg hand, hname']⟩
    · intro other hother
      by_cases hne : other = id
      · exact hne ▸ honlyOpen (hne ▸ hother)
      · obtain ⟨name', hname'⟩ := mem_broadcastTo.mp hother
        rw [hlookup] at hname'
        rw [hlive other hne]
        split at hname'
        · exact absurd (hentry other hname') hne
        · exact h.onlyOpen other (mem_broadcastTo.mpr ⟨name', hname'⟩)

theorem authorize_exact (hmarked : s.Marked) (h : s.Exact) (hlive : s.live id = some miner) (name : WorkerName) :
    (s.authorize id miner name).Exact ↔ (name.hashable → s.Spares name id) := by
  rw [changed_exact hmarked h (fun other hne => by rw [authorize_live hlive, if_neg hne]) (authorize_lookup name)
    (fun other heq => (Option.some.inj heq).symm), and_iff_right]
  rw [authorize_live hlive, if_pos rfl]
  refine ⟨fun miner' hother hauthorized => ?_, fun _ => rfl⟩
  cases hother
  rw [mem_broadcastTo]
  by_cases hname : name.hashable
  · exact ⟨name, by rw [authorize_lookup, if_pos ⟨hname, rfl⟩]⟩
  · obtain ⟨name', hname'⟩ := mem_broadcastTo.mp (h.reached id miner hlive (by simpa [hname] using hauthorized))
    exact ⟨name', by rw [authorize_lookup, if_neg fun hand => hname hand.1, hname']⟩

theorem disconnect_exact (hmarked : s.Marked) (h : s.Exact) (hlive : s.live id = some miner) :
    (s.disconnect id miner).Exact ↔ (∀ name, s.miners.lookup name = some id → name = miner.workerName ∧ name.truthy) ∧
    (miner.workerName.truthy → s.Spares miner.workerName id) := by
  rw [changed_exact hmarked h (fun other hne => by rw [disconnect_live hlive, if_neg hne]) disconnect_lookup nofun,
    disconnect_live hlive, if_pos rfl]
  refine and_congr_left' ((and_iff_right nofun).trans ⟨fun hgone name hlookup => ?_, fun hown hmem => ?_⟩)
  · -- An entry that stays would name a closed session.
    by_contra hdiff
    refine absurd (hgone (mem_broadcastTo.mpr ⟨name, ?_⟩)) (by decide)
    rw [disconnect_lookup, if_neg, hlookup]
    rintro ⟨htruthy, rfl⟩
    exact hdiff ⟨rfl, htruthy⟩
  · obtain ⟨name', hname'⟩ := mem_broadcastTo.mp hmem
    rw [disconnect_lookup] at hname'
    split at hname'
    · cases hname'
    · next hdiff =>
      obtain ⟨hname, htruthy⟩ := hown name' hname'
      exact absurd ⟨hname ▸ htruthy, hname⟩ hdiff

theorem step_exact (hmarked : s.Marked) (h : s.Exact) (event : Event) : (s.step event).Exact ↔ s.Meets event := by
  cases event with
  | connect => exact iff_of_true (connect_exact h) trivial
  | authorize id params =>
    unfold step Meets
    cases hlive : s.live id with
    | none => simpa [hlive] using h
    | some miner =>
      simp only [hlive, Option.some.injEq, forall_eq']
      exact authorize_exact hmarked h hlive _
  | disconnect id =>
    unfold step Meets
    cases hlive : s.live id with
    | none => simpa [hlive] using h
    | some miner =>
      simp only [hlive, Option.some.injEq, forall_eq']
      exact disconnect_exact hmarked h hlive

/-! ## Runs -/

theorem Marked.set (h : s.Marked) (hlive : s.live id = some miner) {miner' : StratumMiner}
    (hauthorized : miner.authorized → miner'.authorized) : Marked { s with sessions := s.sessions.set id miner' } := by
  intro name other hlookup
  obtain ⟨old, hget, hold⟩ := h name other hlookup
  rw [getElem?_set]
  split
  · next heq =>
    subst heq
    rw [(live_spec.mp hlive).1] at hget
    rw [if_pos (live_lt hlive)]
    exact ⟨miner', rfl, hauthorized (Option.some.inj hget ▸ hold)⟩
  · exact ⟨old, hget, hold⟩

theorem step_marked (h : s.Marked) (event : Event) : (s.step event).Marked := by
  unfold step
  split
  · intro name id hlookup
    obtain ⟨miner, hget, hauthorized⟩ := h name id hlookup
    have hlt := (List.getElem?_eq_some_iff.mp hget).1
    refine ⟨miner, ?_, hauthorized⟩
    unfold connect
    rw [getElem?_append_left hlt, hget]
  · split
    · exact h
    · next id params _ miner hlive =>
      unfold authorize
      split
      · intro name other hlookup
        rcases AssocMap.lookup_insert_cases hlookup with ⟨rfl, rfl⟩ | ⟨-, hlookup⟩
        · exact ⟨_, getElem?_set_self (live_lt hlive), rfl⟩
        · exact h.set hlive (fun _ => rfl) name other hlookup
      · exact h.set hlive fun hauthorized => hauthorized
  · split
    · exact h
    · next id _ miner hlive =>
      intro name other hlookup
      rw [disconnect_lookup] at hlookup
      split at hlookup
      · exact absurd hlookup (by simp)
      · have hset : Marked { s with sessions := s.sessions.set id { miner with isOpen := false } } :=
          h.set hlive fun hauthorized => hauthorized
        exact hset name other hlookup

theorem run_nil_marked : (run []).Marked := by
  intro name id hlookup
  exact absurd hlookup (by simp [run])

theorem run_nil_exact : (run []).Exact := by
  constructor
  · intro id miner hlive
    exact absurd hlive (by simp [run, live])
  · intro id hid
    exact absurd hid (by simp [run, broadcastTo])

/-- Exact all along a run just when every step meets the condition. -/
theorem exact_along_iff (events : List Event) : (∀ n ≤ events.length, (run (events.take n)).Exact) ↔
    ∀ n event, events[n]? = some event → (run (events.take n)).Meets event := by
  exact along_iff step Marked Exact Meets (fun _ event h => step_marked h event) (fun _ event hmarked h =>
    step_exact hmarked h event) run_nil_marked run_nil_exact events

/-- A second session takes the name, and a changed one leaves it. -/
theorem registry_not_exact : ¬ (run [.connect, .connect, .authorize 0 [.str "F1"], .authorize 1 [.str "F1"]]).Exact ∧
    ¬ (run [.connect, .authorize 0 [.str "F1"], .authorize 0 [.str "F2"], .disconnect 0]).Exact := by
  constructor
  · intro h
    exact absurd (h.reached 0 ⟨.str "F1", true, true⟩ (by decide) rfl) (by decide)
  · intro h
    exact absurd (h.onlyOpen 0 (by decide)) (by decide)

end Sessions

end FullNode.Pool
