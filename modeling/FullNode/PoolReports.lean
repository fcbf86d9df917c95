import FullNode.PoolStats

/-!
# Announced blocks

`handle_submit` gives a found block to the node through `rpc`, which runs `retardio-cli`. `rpc` returns None for this,
and also for a command that failed.
-/

namespace FullNode.Pool

/-! ## The command -/

/-- How `json.loads` ends. -/
inductive Loaded where
  | value (value : Json)
  | decodeError
  /-- Another exception, as for lists nested too deep. -/
  | raised

/-- How `subprocess.run` ends. The texts are as Python reads them. -/
inductive Completed where
  | timeoutExpired
  | raised
  | completed (returncode : Int) (stdout stderr : List Char)

section

variable (jsonLoads : List Char → Loaded)

def rpc : Completed → Json
  | .completed returncode stdout _ =>
    if returncode = 0 ∧ strip stdout ≠ [] then
      match jsonLoads stdout with
      | .value value => value
      | .decodeError => .str (String.ofList (strip stdout))
      | .raised => .null
    else .null
  | .timeoutExpired => .null
  | .raised => .null

/-- `submitblock` answers null, a text or a value, or it fails. -/
inductive SubmitOutcome where
  | null
  | string (s : List Char)
  /-- A value by its printed text. -/
  | value (text : List Char)
  | failed (returncode : { n : Int // n ≠ 0 }) (stdout stderr : List Char)
  | timeoutExpired
  | raised
  deriving DecidableEq

/-- The end of `CommandLineRPC`. -/
def printed (strPrint : List Char) : List Char := if strPrint ≠ [] then strPrint ++ ['\n'] else []

/-- `retardio-cli`: nothing for null, and a text as it is. -/
def commandLineRPC : SubmitOutcome → Completed
  | .null => .completed 0 (printed []) []
  | .string s => .completed 0 (printed s) []
  | .value text => .completed 0 (printed text) []
  | .failed returncode stdout stderr => .completed returncode stdout stderr
  | .timeoutExpired => .timeoutExpired
  | .raised => .raised

/-! ## The handler -/

/-- What the dashboard and the miner are told of a block. -/
inductive Announcement where
  | reportBlockToUi (height : Nat) (blockHash : List UInt8) (worker : Json) (reward : Uint64)
      (minerAddress : Option String)
  | showMessage (message : String)
  deriving DecidableEq

def blockTaken (result : Json) : Bool := result = .null || result = .str ""

/-- Nothing fails before the statistics, and the share is a block. -/
def FindsBlock (config : Config) (id : Nat) (session : Session) (params : List Json) (job : Job)
    (share : Share) : Prop :=
  readShare (id + 1) session.miner params = .ok (job, share) ∧ session.workerName.hashable ∧
    config.lowDifficulty (leValue (sha256d share.header)) = false ∧ leValue (sha256d share.header) < job.target.toNat

def acceptance (session : Session) (job : Job) (share : Share) : List Announcement :=
  [.reportBlockToUi job.template.height (sha256d share.header).reverse session.workerName job.template.coinbasevalue
      session.miner.minerWallet, .showMessage ("BLOCK FOUND! Height " ++ toString job.template.height)]

def announcements (config : Config) (id : Nat) (session : Session) (params : List Json)
    (outcome : SubmitOutcome) : List Announcement :=
  match readShare (id + 1) session.miner params with
  | .error _ => []
  | .ok (job, share) =>
    let hashInt := leValue (sha256d share.header)
    if session.workerName.hashable && !config.lowDifficulty hashInt && decide (hashInt < job.target.toNat) &&
        blockTaken (rpc jsonLoads (commandLineRPC outcome)) then acceptance session job share
    else []

/-- `handle_submit` with the command, and a new template if taken. -/
def Server.submitBlock (config : Config) (s : Server) (id : Nat) (session : Session) (params : List Json)
    (outcome : SubmitOutcome) (template : Option Template) : List Announcement × Answer × Server :=
  (announcements jsonLoads config id session params outcome, s.submit config id session params
      (if blockTaken (rpc jsonLoads (commandLineRPC outcome)) then .taken template else .rejected))

def Shows (text : List Char) : Prop :=
  strip (printed text) ≠ [] ∧ match jsonLoads (printed text) with
    | .value value => value ≠ .null ∧ value ≠ .str ""
    | .decodeError => True
    | .raised => False

def Told : SubmitOutcome → Prop
  | .null => True
  | .string s => Shows jsonLoads s
  | .value text => Shows jsonLoads text
  | .failed _ _ _ => False
  | .timeoutExpired => False
  | .raised => False

end

/-! ## What counts as taken -/

section Taken

variable {jsonLoads : List Char → Loaded} {config : Config} {id : Nat} {session : Session}
  {params : List Json} {job : Job} {share : Share} {outcome : SubmitOutcome}

theorem not_taken_iff {result : Json} : blockTaken result = false ↔ result ≠ .null ∧ result ≠ .str "" := by
  simp [blockTaken]

theorem rpc_printed (text : List Char) : blockTaken (rpc jsonLoads (.completed 0 (printed text) [])) = false ↔
    Shows jsonLoads text := by
  unfold Shows rpc
  by_cases hblank : strip (printed text) = []
  · simp [hblank, blockTaken]
  · simp only [hblank, ne_eq, not_false_eq_true, and_self, if_true, true_and]
    split
    · next value hvalue => rw [not_taken_iff]
    · next hdecode =>
      rw [not_taken_iff]
      refine iff_of_true ⟨by simp, fun hempty => hblank ?_⟩ trivial
      simpa using congrArg String.toList (WorkerName.str.inj hempty)
    · next hraised => simp [blockTaken]

theorem taken_null : blockTaken (rpc jsonLoads (commandLineRPC .null)) = true := by
  simp [commandLineRPC, printed, rpc, strip, blockTaken]

theorem taken_failed (returncode : { n : Int // n ≠ 0 }) (stdout stderr : List Char) :
    blockTaken (rpc jsonLoads (commandLineRPC (.failed returncode stdout stderr))) = true := by
  simp [commandLineRPC, rpc, returncode.property, blockTaken]

theorem taken_iff_told : (blockTaken (rpc jsonLoads (commandLineRPC outcome)) = true ↔ outcome = .null) ↔
    Told jsonLoads outcome := by
  cases outcome with
  | null => simp [taken_null, Told]
  | string s => simpa [Told, commandLineRPC] using rpc_printed s
  | value text => simpa [Told, commandLineRPC] using rpc_printed text
  | failed returncode stdout stderr => simp [taken_failed, Told]
  | timeoutExpired | raised => simp [commandLineRPC, rpc, blockTaken, Told]

/-! ## What is announced -/

theorem announcements_found (h : FindsBlock config id session params job share) :
    announcements jsonLoads config id session params outcome =
      if blockTaken (rpc jsonLoads (commandLineRPC outcome)) then acceptance session job share else [] := by
  obtain ⟨hread, hhashable, hdifficulty, htarget⟩ := h
  unfold announcements
  rw [hread]
  simp only [hhashable, hdifficulty, htarget, Bool.not_false, decide_true, Bool.true_and]

/-- Announced just when taken, just when the outcome can be told. -/
theorem announced_iff_taken (server : Server) (template : Option Template)
    (h : FindsBlock config id session params job share) (outcome : SubmitOutcome) :
    (((server.submitBlock jsonLoads config id session params outcome template).1 = acceptance session job share ↔
      outcome = .null) ∧
        ((server.submitBlock jsonLoads config id session params outcome template).1 = [] ↔ outcome ≠ .null)) ↔
      Told jsonLoads outcome := by
  unfold Server.submitBlock
  rw [announcements_found h, ← taken_iff_told]
  cases blockTaken (rpc jsonLoads (commandLineRPC outcome)) with
  | true | false => simp [acceptance]

end Taken

/-! ## A timeout -/

def smallSession : Session := { workerName := .str "rig", miner := smallMiner (smallTemplate 0x20000020 []) }

def openConfig : Config := ⟨fun _ => false, "", "0000"⟩

theorem smallSession_finds : ∃ share, FindsBlock openConfig 0 smallSession (smallShare "00000000" "00000002")
    (smallJob (smallTemplate 0x20000020 [])) share := by
  have hshare : (buildShare 1 (smallJob (smallTemplate 0x20000020 [])) "00000000".toList "6553f100".toList
      "00000002".toList).any
      (fun share => decide (leValue (sha256d share.header) <
        (smallJob (smallTemplate 0x20000020 [])).target.toNat)) = true := by
    decide +kernel
  obtain ⟨share, hsome, htarget⟩ := (Option.any_eq_true _ _).mp hshare
  refine ⟨share, ?_, rfl, rfl, of_decide_eq_true htarget⟩
  unfold readShare smallShare smallSession
  simp only [smallMiner_job, hsome]

/-- A block that the node took is announced. -/
theorem smallSession_announced : ∃ share, FindsBlock openConfig 0 smallSession (smallShare "00000000" "00000002")
    (smallJob (smallTemplate 0x20000020 [])) share ∧
    ((((({} : Server).submitBlock (fun _ => .decodeError) openConfig 0 smallSession
      (smallShare "00000000" "00000002") .null none).1 =
          acceptance smallSession (smallJob (smallTemplate 0x20000020 [])) share ↔ SubmitOutcome.null = .null) ∧
        ((({} : Server).submitBlock (fun _ => .decodeError) openConfig 0 smallSession
          (smallShare "00000000" "00000002") .null none).1 =
          [] ↔ SubmitOutcome.null ≠ .null)) ↔ Told (fun _ => .decodeError) .null) := by
  obtain ⟨share, hfinds⟩ := smallSession_finds
  exact ⟨share, hfinds, announced_iff_taken {} none hfinds .null⟩

/-- A command that timed out is announced like a block taken. -/
theorem timeout_announced : ∃ share, FindsBlock openConfig 0 smallSession (smallShare "00000000" "00000002")
    (smallJob (smallTemplate 0x20000020 [])) share ∧
    ∀ jsonLoads, ¬ ((({} : Server).submitBlock jsonLoads openConfig 0 smallSession (smallShare "00000000" "00000002")
        .timeoutExpired none).1 = acceptance smallSession (smallJob (smallTemplate 0x20000020 [])) share ↔
      SubmitOutcome.timeoutExpired = .null) := by
  obtain ⟨share, hfinds⟩ := smallSession_finds
  refine ⟨share, hfinds, fun jsonLoads h => ?_⟩
  have hannounced : (({} : Server).submitBlock jsonLoads openConfig 0 smallSession (smallShare "00000000" "00000002")
      .timeoutExpired none).1 = acceptance smallSession (smallJob (smallTemplate 0x20000020 [])) share := by
    unfold Server.submitBlock
    rw [announcements_found hfinds]
    rfl
  exact SubmitOutcome.noConfusion (h.mp hannounced)

end FullNode.Pool
