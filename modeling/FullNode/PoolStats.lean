import FullNode.PoolAddresses
import FullNode.PoolShares

/-! # Share counts -/

namespace FullNode.Pool

open List

/-! ## The code -/

structure Session where
  workerName : WorkerName := .null
  isOpen : Bool := true
  miner : Miner

/-- The sessions as they were accepted, and `shares`. -/
structure Server where
  sessions : List Session := []
  workerStats : AssocMap WorkerName Nat := ∅

inductive Message where
  | connect
  | authorize (id : Nat) (params : List Json) (template : Option Template)
  | submit (id : Nat) (params : List Json) (node : NodeReply)
  /-- The broadcaster reaches a session. -/
  | broadcast (id : Nat) (template : Option Template)
  | disconnect (id : Nat)

structure Config where
  lowDifficulty : Nat → Bool
  poolAddress : String
  sessionId : String

abbrev Key := Nat × List Json

def keyOf (id : Nat) (params : List Json) : Key := (id, (params.drop 1).take 4)

/-- The pool, and the submissions answered with true so far. -/
structure History where
  server : Server := {}
  accepted : List (WorkerName × Key) := []

namespace Server

def live (s : Server) (id : Nat) : Option Session := s.sessions[id]?.filter (·.isOpen)

/-- Session `id` has the extranonce counter `id + 1`. -/
def connect (s : Server) : Server :=
  { s with sessions := s.sessions ++ [{ miner := { extranonce1 := hexOf (BitVec.ofNat 32 (s.sessions.length + 1)) } }] }

def setSession (s : Server) (id : Nat) (session : Session) : Server := { s with sessions := s.sessions.set id session }

/-- The name stays set when it is no key, or when it has no `split`. -/
def authorize (config : Config) (s : Server) (id : Nat) (session : Session) (name : WorkerName)
    (template : Option Template) : Server :=
  if name.hashable then
    match extractMinerAddress hash256 name with
    | .error _ => s.setSession id { session with workerName := name }
    | .ok minerWallet =>
      let miner := { session.miner with minerWallet }
      { sessions := s.sessions.set id { session with
          workerName := name
          miner := match template with
            | none => miner
            | some template => sendJob config.poolAddress config.sessionId miner template }
        workerStats := if (s.workerStats.lookup name).isSome then s.workerStats else s.workerStats.insert name 0 }
  else s.setSession id { session with workerName := name }

/-- `handle_submit` with its statistics, which need the name. -/
def submit (config : Config) (s : Server) (id : Nat) (session : Session) (params : List Json)
    (node : NodeReply) : Answer × Server :=
  match readShare (id + 1) session.miner params with
  | .error answer => (answer, s)
  | .ok (job, share) =>
    if session.workerName.hashable then
      let (answer, miner) := judgeShare config.lowDifficulty config.poolAddress config.sessionId node
          session.miner job share
      (answer, {
        sessions := s.sessions.set id { session with miner }
        workerStats := match s.workerStats.lookup session.workerName with
          | some shares => s.workerStats.insert session.workerName (shares + 1)
          | none => s.workerStats })
    else (.raised, s)

def broadcast (config : Config) (s : Server) (id : Nat) (session : Session) (template : Option Template) : Server :=
  match template with
  | none => s
  | some template =>
    s.setSession id { session with miner := sendJob config.poolAddress config.sessionId session.miner template }

end Server

namespace History

def step (config : Config) (h : History) : Message → History
  | .connect => { h with server := h.server.connect }
  | .authorize id params template =>
    match h.server.live id with
    | none => h
    | some session => { h with server := h.server.authorize config id session (requestedName params) template }
  | .submit id params node =>
    match h.server.live id with
    | none => h
    | some session =>
      match h.server.submit config id session params node with
      | (.accepted _, server) => { server, accepted := (session.workerName, keyOf id params) :: h.accepted }
      | (_, server) => { h with server }
  | .broadcast id template =>
    match h.server.live id with
    | none => h
    | some session => { h with server := h.server.broadcast config id session template }
  | .disconnect id =>
    match h.server.live id with
    | none => h
    | some session => { h with server := h.server.setSession id { session with isOpen := false } }

def run (config : Config) (messages : List Message) : History := messages.foldl (step config) {}

/-! ## Exact counts -/

def distinct (h : History) (worker : WorkerName) : List Key :=
  ((h.accepted.filter fun entry => entry.1 = worker).map Prod.snd).dedup

def shares (h : History) (worker : WorkerName) : Nat := (h.server.workerStats.lookup worker).getD 0

def Exact (h : History) : Prop := ∀ worker, h.shares worker = (h.distinct worker).length

end History

def Passes (config : Config) (node : NodeReply) (miner : Miner) (job : Job) (share : Share) : Prop :=
  config.lowDifficulty (leValue (sha256d share.header)) = false ∧
    (leValue (sha256d share.header) < job.target.toNat → ∀ template, node = .taken (some template) →
      (makeJob config.poolAddress miner.minerWallet template).isSome)

namespace History

/-- What gets to the statistics counts when it first passes. -/
def Meets (config : Config) (h : History) : Message → Prop
  | .submit id params node =>
    ∀ session job share, h.server.live id = some session → readShare (id + 1) session.miner params = .ok (job, share) →
      session.workerName.hashable → ((h.server.workerStats.lookup session.workerName).isSome ↔
        Passes config node session.miner job share ∧ (session.workerName, keyOf id params) ∉ h.accepted)
  | _ => True

end History

/-! ## Answers -/

theorem judgeShare_accepted_iff {config : Config} {node : NodeReply} {miner : Miner} {job : Job} {share : Share} :
    (∃ share', (judgeShare config.lowDifficulty config.poolAddress config.sessionId node miner job share).1 =
      .accepted share') ↔ Passes config node miner job share := by
  unfold judgeShare Passes
  simp only
  split
  · next hlow => simp [hlow]
  · next hlow =>
    rw [Bool.not_eq_true] at hlow
    split
    · next hblock =>
      split
      · simp [hlow]
      · simp [hlow]
      · next template =>
        simp only [hlow, hblock, true_and, forall_const, NodeReply.taken.injEq, Option.some.injEq, forall_eq']
        split
        · next hsome => simp [hsome]
        · next hnone => simp [hnone]
    · next hblock => simp [hlow, hblock]

namespace History

variable {config : Config} {h : History}

variable {server : Server} {id : Nat} {session : Session} {params : List Json} {node : NodeReply} {job : Job}
  {share : Share}

theorem exact_congr (hshares : ∀ worker, shares ⟨server, h.accepted⟩ worker = h.shares worker) :
    Exact ⟨server, h.accepted⟩ ↔ h.Exact := by
  unfold Exact
  simp only [hshares]
  rfl

theorem authorize_shares (id : Nat) (session : Session) (name : WorkerName) (template : Option Template)
    (accepted : List (WorkerName × Key)) (worker : WorkerName) :
    shares ⟨h.server.authorize config id session name template, accepted⟩ worker = h.shares worker := by
  unfold Server.authorize shares
  split
  · split
    · rfl
    · simp only
      split
      · rfl
      · next hnone =>
        rw [Option.not_isSome_iff_eq_none] at hnone
        by_cases hname : worker = name
        · rw [hname, AList.lookup_insert, hnone]
          rfl
        · rw [AList.lookup_insert_ne hname]
  · rfl

theorem mem_distinct (h : History) (worker : WorkerName) (key : Key) : key ∈ h.distinct worker ↔
    (worker, key) ∈ h.accepted := by
  unfold distinct
  simp

theorem distinct_cons (server : Server) (name : WorkerName) (key : Key) (worker : WorkerName) :
    (distinct ⟨server, (name, key) :: h.accepted⟩ worker).length =
      (h.distinct worker).length + if worker = name ∧ (name, key) ∉ h.accepted then 1 else 0 := by
  by_cases hname : name = worker
  · subst hname
    have hnew := mem_distinct h name key
    unfold distinct at hnew ⊢
    simp only [filter_cons, decide_true, if_true, map_cons, true_and]
    rw [mem_dedup] at hnew
    by_cases hmem : (name, key) ∈ h.accepted
    · rw [dedup_cons_of_mem (hnew.mpr hmem), if_neg (not_not.mpr hmem)]
      rfl
    · rw [dedup_cons_of_notMem (mt hnew.mp hmem), if_pos hmem, length_cons]
  · rw [if_neg fun hand => hname hand.1.symm]
    unfold distinct
    simp only [filter_cons, hname, decide_false, Bool.false_eq_true, if_false, Nat.add_zero]

/-! ## Counting -/

theorem submit_shares (hread : readShare (id + 1) session.miner params = .ok (job, share))
    (hname : session.workerName.hashable) (accepted accepted' : List (WorkerName × Key)) (worker : WorkerName) :
    shares ⟨(server.submit config id session params node).2, accepted⟩ worker = shares ⟨server, accepted'⟩ worker +
        if worker = session.workerName ∧ (server.workerStats.lookup session.workerName).isSome then 1 else 0 := by
  unfold Server.submit shares
  simp only [hread, hname, if_true]
  cases hlookup : server.workerStats.lookup session.workerName with
  | none => simp
  | some n =>
    simp only [Option.isSome_some, and_true]
    split
    · next heq => rw [heq, AList.lookup_insert, hlookup]; rfl
    · next hne => rw [AList.lookup_insert_ne hne]; rfl

theorem submit_answer (config : Config) (server : Server) (node : NodeReply)
    (hread : readShare (id + 1) session.miner params = .ok (job, share)) (hname : session.workerName.hashable) :
    (∃ share', (server.submit config id session params node).1 = .accepted share') ↔
      Passes config node session.miner job share := by
  unfold Server.submit
  simp only [hread, hname, if_true]
  exact judgeShare_accepted_iff

theorem step_uncounted (hlive : h.server.live id = some session)
    (huncounted : ¬ ((∃ job share, readShare (id + 1) session.miner params = .ok (job, share)) ∧
    session.workerName.hashable)) : h.step config (.submit id params node) = h := by
  have hsubmit : ∃ answer, h.server.submit config id session params node = (answer, h.server) ∧ ∀ share,
      answer ≠ .accepted share := by
    unfold Server.submit
    cases hread : readShare (id + 1) session.miner params with
    | error answer => exact ⟨answer, rfl, readShare_error hread⟩
    | ok read =>
      obtain ⟨job, share⟩ := read
      have hname : ¬ session.workerName.hashable := fun hname => huncounted ⟨⟨job, share, hread⟩, hname⟩
      simp only [hname, Bool.false_eq_true, if_false]
      exact ⟨.raised, rfl, fun _ => by simp⟩
  obtain ⟨answer, hsubmit, _⟩ := hsubmit
  simp only [step, hlive, hsubmit]

theorem step_submit (config : Config) (node : NodeReply)
    (hlive : h.server.live id = some session) (hread : readShare (id + 1) session.miner params = .ok (job, share))
    (hname : session.workerName.hashable) :
    (Passes config node session.miner job share ∧ h.step config (.submit id params node) =
      ⟨(h.server.submit config id session params node).2, (session.workerName, keyOf id params) :: h.accepted⟩) ∨
    (¬ Passes config node session.miner job share ∧ h.step config (.submit id params node) =
      ⟨(h.server.submit config id session params node).2, h.accepted⟩) := by
  have hanswer := submit_answer config h.server node hread hname
  unfold step
  simp only [hlive]
  split
  · next share' server hsubmit =>
    rw [hsubmit] at hanswer ⊢
    exact .inl ⟨hanswer.mp ⟨share', rfl⟩, rfl⟩
  · next answer server hrefused hsubmit =>
    rw [hsubmit] at hanswer ⊢
    refine .inr ⟨fun hpasses => ?_, rfl⟩
    obtain ⟨share', hshare⟩ := hanswer.mpr hpasses
    exact hrefused share' hshare

theorem submit_exact (hexact : h.Exact) (hlive : h.server.live id = some session)
    (hread : readShare (id + 1) session.miner params = .ok (job, share)) (hname : session.workerName.hashable) :
    (h.step config (.submit id params node)).Exact ↔ ((h.server.workerStats.lookup session.workerName).isSome ↔
        Passes config node session.miner job share ∧ (session.workerName, keyOf id params) ∉ h.accepted) := by
  have hshares (accepted : List (WorkerName × Key)) (worker : WorkerName) :
      shares ⟨(h.server.submit config id session params node).2, accepted⟩ worker = (h.distinct worker).length +
        if worker = session.workerName ∧ (h.server.workerStats.lookup session.workerName).isSome then 1 else 0 := by
    rw [submit_shares hread hname accepted h.accepted worker, ← hexact]
  unfold Exact
  rcases step_submit config node hlive hread hname with ⟨hpasses, hstep⟩ | ⟨hfails, hstep⟩
  · simp only [hstep, hshares, distinct_cons, hpasses, true_and, Nat.add_left_cancel_iff]
    constructor
    · intro hall
      have hself := hall session.workerName
      simp only [true_and] at hself
      split at hself <;> split at hself <;> simp_all
    · intro hiff worker
      simp only [hiff]
  · have hsame (worker : WorkerName) :
        (distinct ⟨(h.server.submit config id session params node).2, h.accepted⟩ worker).length =
        (h.distinct worker).length := rfl
    simp only [hstep, hshares, hsame, hfails, false_and, iff_false]
    constructor
    · intro hall hsome
      have hself := hall session.workerName
      rw [if_pos ⟨rfl, hsome⟩] at hself
      omega
    · intro hnone worker
      rw [if_neg fun hand => hnone hand.2, Nat.add_zero]

/-- From exact counts, exact ones just when the condition is met. -/
theorem step_exact (hexact : h.Exact) (message : Message) : (h.step config message).Exact ↔ h.Meets config message := by
  cases message with
  | connect => exact iff_of_true ((exact_congr fun _ => rfl).mpr hexact) trivial
  | authorize id params template =>
    refine iff_of_true ?_ trivial
    cases hlive : h.server.live id with
    | none => simpa only [step, hlive] using hexact
    | some session =>
      simp only [step, hlive]
      exact (exact_congr (authorize_shares id session (requestedName params) template h.accepted)).mpr hexact
  | submit id params node =>
    cases hlive : h.server.live id with
    | none =>
      refine iff_of_true ?_ ?_
      · simpa only [step, hlive] using hexact
      · intro session job share hsession
        rw [hlive] at hsession
        cases hsession
    | some session =>
      by_cases hcounts : (∃ job share, readShare (id + 1) session.miner params = .ok (job, share)) ∧
          session.workerName.hashable
      · obtain ⟨⟨job, share, hread⟩, hname⟩ := hcounts
        rw [submit_exact hexact hlive hread hname]
        constructor
        · intro hiff session' job' share' hlive' hread' _
          cases hlive.symm.trans hlive'
          obtain ⟨rfl, rfl⟩ := Prod.mk.inj (Except.ok.inj (hread.symm.trans hread'))
          exact hiff
        · intro hmeets
          exact hmeets session job share hlive hread hname
      · refine iff_of_true ?_ ?_
        · rw [step_uncounted hlive hcounts]
          exact hexact
        · intro session' job share hlive' hread hname
          cases hlive.symm.trans hlive'
          exact absurd ⟨⟨job, share, hread⟩, hname⟩ hcounts
  | broadcast id template =>
    refine iff_of_true ?_ trivial
    cases hlive : h.server.live id with
    | none => simpa only [step, hlive] using hexact
    | some session =>
      simp only [step, hlive, Server.broadcast]
      cases template with
      | none => exact hexact
      | some template => exact (exact_congr fun _ => rfl).mpr hexact
  | disconnect id =>
    refine iff_of_true ?_ trivial
    cases hlive : h.server.live id with
    | none => simpa only [step, hlive] using hexact
    | some session =>
      simp only [step, hlive]
      exact (exact_congr fun _ => rfl).mpr hexact

/-- Exact all along a run just when every step meets the condition. -/
theorem shares_exact_iff (config : Config) (messages : List Message) :
    (∀ n ≤ messages.length, (run config (messages.take n)).Exact) ↔
    ∀ n message, messages[n]? = some message → (run config (messages.take n)).Meets config message := by
  refine along_iff (step config) (fun _ => True) Exact (Meets config) (fun _ _ _ => trivial) ?_ trivial ?_ messages
  · intro h message _ hexact
    exact step_exact hexact message
  · intro worker
    rfl

/-! ## Two runs -/

def smallConfig : Config := ⟨belowThousandth, "", "0000"⟩

def smallRun (submissions : List (List Json)) : List Message :=
  [.connect, .authorize 0 [.str "rig"] (some (smallTemplate 0x20000020 []))] ++
    submissions.map fun params => .submit 0 params .rejected

/-- A refused share is counted, and one accepted before again. -/
theorem shares_not_exact : ¬ (run smallConfig (smallRun [smallShare "00000000" "00000000"])).Exact ∧
    ¬ (run smallConfig (smallRun [smallShare "00000000" "003bc228", smallShare "00000000" "003bc228"])).Exact := by
  constructor
  all_goals
    intro h
    exact absurd (h (.str "rig")) (by decide +kernel)

end History

end FullNode.Pool
