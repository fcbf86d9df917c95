import FullNode.PoolBlocks

/-!
# What the pool's blocks commit to

The header names the previous block and the target as the template does. Both are right only where reversing changes
nothing.
-/

namespace FullNode.Pool

open List
open Wire (readBits writeBits writeBits_canonical)

/-! ## Sizes -/

theorem sha256d_length (data : List UInt8) : (sha256d data).length = 32 := sha256_length _

variable {w : Nat} {coinbaseHash bytes : List UInt8} {poolAddress : String} {template : Template} {miner : Miner}
  {a b : List UInt8} {job : Job}

theorem writeBits_length (value : BitVec w) : (writeBits value).length = w / 8 := leBytes_length _ _

theorem merkleRoot_length (h : coinbaseHash.length = 32) (branches : List (List UInt8)) :
    (merkleRoot coinbaseHash branches).length = 32 := by
  unfold merkleRoot
  cases branches using reverseRecOn with
  | nil => exact h
  | append_singleton branches branch =>
    rw [foldl_append]
    exact sha256d_length _

/-! ## Byte orders -/

theorem words_flatten_of_four {chunks : List (List UInt8)} (h : ∀ c ∈ chunks, c.length = 4) :
    words chunks.flatten = chunks := by
  induction chunks with
  | nil => rfl
  | cons chunk chunks ih =>
    obtain ⟨b0, b1, b2, b3, rfl⟩ : ∃ b0 b1 b2 b3, chunk = [b0, b1, b2, b3] := by
      have hlength := h chunk mem_cons_self
      match chunk, hlength with
      | [b0, b1, b2, b3], _ => exact ⟨b0, b1, b2, b3, rfl⟩
    rw [flatten_cons]
    change [b0, b1, b2, b3] :: words chunks.flatten = _
    rw [ih fun c hc => h c (mem_cons_of_mem _ hc)]

theorem words_spec {n : Nat} (h : bytes.length = 4 * n) : (words bytes).flatten = bytes ∧ ∀ c ∈ words bytes,
    c.length = 4 := by
  induction n generalizing bytes with
  | zero =>
    obtain rfl := length_eq_zero_iff.mp h
    exact ⟨rfl, by simp [words]⟩
  | succ n ih =>
    obtain ⟨b0, b1, b2, b3, rest, rfl⟩ : ∃ b0 b1 b2 b3 rest, bytes = b0 :: b1 :: b2 :: b3 :: rest := by
      match bytes, h with
      | b0 :: b1 :: b2 :: b3 :: rest, _ => exact ⟨b0, b1, b2, b3, rest, rfl⟩
    have hrest : rest.length = 4 * n := by
      simp only [length_cons] at h
      omega
    obtain ⟨hflatten, hfour⟩ := ih hrest
    unfold words
    rw [flatten_cons, hflatten]
    refine ⟨rfl, ?_⟩
    intro c hc
    rcases mem_cons.mp hc with rfl | hc
    · rfl
    · exact hfour c hc

theorem swapEndianWords_words {n : Nat} (h : bytes.length = 4 * n) :
    swapEndianWords (words bytes).reverse.flatten = bytes.reverse := by
  obtain ⟨hflatten, hfour⟩ := words_spec h
  have hreversed : ∀ c ∈ (words bytes).reverse, c.length = 4 := fun c hc => hfour c (mem_reverse.mp hc)
  unfold swapEndianWords
  rw [words_flatten_of_four hreversed]
  conv_rhs => rw [← hflatten, reverse_flatten]
  rw [flatMap_def, map_reverse]

theorem writeBits_leValue (hw : 8 ∣ w) (h : bytes.length = w / 8) :
    writeBits (BitVec.ofNat w (leValue bytes)) = bytes := by
  have hpow : 256 ^ (w / 8) = 2 ^ w := by
    rw [show 256 = 2 ^ 8 from rfl, ← Nat.pow_mul, Nat.mul_div_cancel' hw]
  have hlt := leValue_lt bytes
  rw [h, hpow] at hlt
  unfold Wire.writeBits
  rw [BitVec.toNat_ofNat, Nat.mod_eq_of_lt hlt, ← h]
  exact leBytes_leValue bytes

theorem readBits_bytes (hw : 8 ∣ w) (h : bytes.length = w / 8) (rest : List UInt8) :
    (readBits w).run (bytes ++ rest) = .ok (BitVec.ofNat w (leValue bytes), rest) := by
  have hread := (writeBits_canonical hw).unser_ser (a := BitVec.ofNat w (leValue bytes)) trivial rest
  rw [writeBits_leValue hw h] at hread
  exact hread

def byteSwap (value : Uint32) : Uint32 := BitVec.ofNat 32 (leValue (writeBits value).reverse)

/-! ## The header -/

theorem readBlockHeader_blockHeader {minerWallet : Option String}
    (hjob : makeJob poolAddress minerWallet template = some job) (miner : Miner) (submission : Submission)
    (rest : List UInt8) : readBlockHeader.run (blockHeader miner job submission ++ rest) = .ok
      ({ nVersion := byteSwap template.version
         hashPrevBlock := template.previousblockhash
         hashMerkleRoot := ofBytes (merkleRoot (sha256d (coinbase miner job submission))
           (template.transactions.map fun tx => hexOf tx.txid))
         nTime := submission.ntime
         nBits := template.bits
         nNonce := submission.nonce }, rest) := by
  obtain ⟨_, -, hmake⟩ := Option.bind_eq_some_iff.mp hjob
  cases hmake
  unfold blockHeader readBlockHeader
  simp only [append_assoc]
  have hprev : swapEndianWords (words (hexOf template.previousblockhash)).reverse.flatten =
      writeBits template.previousblockhash := by
    have hlength : (hexOf template.previousblockhash).length = 4 * 8 := by
      unfold hexOf
      rw [length_reverse, writeBits_length]
    rw [swapEndianWords_words hlength]
    exact reverse_reverse _
  rw [hprev, Reader.run_bind_of_ok (readBits_bytes (by decide) (by rw [length_reverse, writeBits_length]) _)]
  rw [Reader.run_bind_of_ok ((writeBits_canonical (by decide)).unser_ser trivial _)]
  rw [Reader.run_bind_of_ok (readBits_bytes (by decide) (merkleRoot_length (sha256d_length _) _) _)]
  unfold hexOf
  simp only [reverse_reverse]
  iterate 3 rw [Reader.run_bind_of_ok ((writeBits_canonical (by decide)).unser_ser trivial _)]
  rfl

/-! ## The root -/

theorem writeBits_ofBytes (h : bytes.length = 32) : writeBits (ofBytes bytes) = bytes :=
  writeBits_leValue (by decide) h

theorem ofBytes_inj (ha : a.length = 32) (hb : b.length = 32) : ofBytes a = ofBytes b ↔ a = b := by
  constructor
  · intro h
    rw [← writeBits_ofBytes ha, ← writeBits_ofBytes hb, h]
  · rintro rfl
    rfl

theorem merkleLevel_length (hashes : List Uint256) : (merkleLevel hashes).length = (hashes.length + 1) / 2 := by
  induction hashes using merkleLevel.induct with
  | case1 | case2 last => simp [merkleLevel]
  | case3 left right hashes ih =>
    rw [merkleLevel, length_cons, ih]
    simp only [length_cons]
    omega

def merkleTop : Nat → List Uint256 → Uint256 × Uint256
  | 0, hashes => (hashes.headD 0, hashes.getD 1 0)
  | rounds + 1, hashes =>
    if hashes.length > 2 then merkleTop rounds (merkleLevel hashes) else (hashes.headD 0, hashes.getD 1 0)

theorem merkleLoop_top {rounds : Nat} {hashes : List Uint256} (htwo : 2 ≤ hashes.length)
    (hrounds : hashes.length ≤ rounds) :
    merkleLoop rounds hashes = hashPair (merkleTop rounds hashes).1 (merkleTop rounds hashes).2 := by
  induction rounds generalizing hashes with
  | zero => omega
  | succ rounds ih =>
    unfold merkleLoop merkleTop
    rw [if_pos (by omega)]
    have hlength := merkleLevel_length hashes
    split
    · exact ih (by omega) (by omega)
    · match hashes, htwo with
      | [left, right], _ =>
        cases rounds with
        | zero => rfl
        | succ rounds => rfl
      | left :: right :: next :: hashes, _ => simp only [length_cons] at *; omega

def Collide (a b : List UInt8) : Prop := a ≠ b ∧ sha256d a = sha256d b

theorem sha256d_eq_iff : sha256d a = sha256d b ↔ a = b ∨ Collide a b := by
  unfold Collide
  constructor
  · intro h
    by_cases heq : a = b
    · exact .inl heq
    · exact .inr ⟨heq, h⟩
  · rintro (rfl | h)
    · rfl
    · exact h.2

def ReadsBothWays {w : Nat} (value : BitVec w) : Prop := hexOf value = writeBits value

/-- The hashes of a longer block come out right all the same. -/
def Accident (coinbaseHash : List UInt8) (txids : List Uint256) (last : Uint256) : Prop :=
  let before := merkleRoot coinbaseHash (txids.map hexOf)
  let hashes := ofBytes coinbaseHash :: (txids ++ [last])
  let top := merkleTop hashes.length hashes
  (before = writeBits top.1 ∧ hexOf last = writeBits top.2) ∨
    Collide (before ++ hexOf last) (writeBits top.1 ++ writeBits top.2)

def RootsAgree (coinbaseHash : List UInt8) (txids : List Uint256) : Prop :=
  txids = [] ∨ (∃ txid, txids = [txid] ∧
    (ReadsBothWays txid ∨ Collide (coinbaseHash ++ hexOf txid) (coinbaseHash ++ writeBits txid))) ∨
  ∃ first rest last, txids = first :: (rest ++ [last]) ∧ Accident coinbaseHash (first :: rest) last

theorem merkleRoot_concat (coinbaseHash : List UInt8) (branches : List (List UInt8)) (branch : List UInt8) :
    merkleRoot coinbaseHash (branches ++ [branch]) = sha256d (merkleRoot coinbaseHash branches ++ branch) := by
  unfold merkleRoot
  rw [foldl_append]
  rfl

theorem hexOf_length (value : Uint256) : (hexOf value).length = 32 := by
  unfold hexOf
  rw [length_reverse, writeBits_length]

theorem accident_iff (h : coinbaseHash.length = 32) (txids : List Uint256) (last : Uint256) :
    ofBytes (merkleRoot coinbaseHash ((txids ++ [last]).map hexOf)) =
      computeMerkleRoot (ofBytes coinbaseHash :: (txids ++ [last])) ↔ Accident coinbaseHash txids last := by
  have hlong : 2 ≤ (ofBytes coinbaseHash :: (txids ++ [last])).length := by simp
  unfold computeMerkleRoot Accident
  rw [merkleLoop_top hlong le_rfl, hashPair, map_append, map_singleton, merkleRoot_concat,
    ofBytes_inj (sha256d_length _) (sha256d_length _), sha256d_eq_iff]
  have hlength : (merkleRoot coinbaseHash (txids.map hexOf)).length =
      (writeBits (merkleTop (ofBytes coinbaseHash :: (txids ++ [last])).length
        (ofBytes coinbaseHash :: (txids ++ [last]))).1).length := by
    rw [merkleRoot_length h, writeBits_length]
  refine or_congr_left ?_
  constructor
  · intro heq
    exact append_inj heq hlength
  · rintro ⟨hbefore, hlast⟩
    rw [hbefore, hlast]

theorem rootsAgree_iff (h : coinbaseHash.length = 32) (txids : List Uint256) :
    ofBytes (merkleRoot coinbaseHash (txids.map hexOf)) = computeMerkleRoot (ofBytes coinbaseHash :: txids) ↔
      RootsAgree coinbaseHash txids := by
  unfold RootsAgree
  match txids with
  | [] =>
    simp only [map_nil, true_or, iff_true]
    rfl
  | [txid] =>
    have hsingle : computeMerkleRoot [ofBytes coinbaseHash, txid] = hashPair (ofBytes coinbaseHash) txid := rfl
    rw [map_singleton, hsingle, hashPair, writeBits_ofBytes h]
    change ofBytes (sha256d (coinbaseHash ++ hexOf txid)) = _ ↔ _
    rw [ofBytes_inj (sha256d_length _) (sha256d_length _), sha256d_eq_iff, append_cancel_left_eq]
    constructor
    · intro hcase
      exact .inr (.inl ⟨txid, rfl, hcase⟩)
    · rintro (hnil | ⟨_, heq, hcase⟩ | ⟨first, rest, last, heq, -⟩)
      · cases hnil
      · obtain rfl := singleton_inj.mp heq
        exact hcase
      · simp at heq
  | first :: second :: txids =>
    obtain ⟨rest, last, hlast⟩ : ∃ rest last, second :: txids = rest ++ [last] :=
      ⟨_, _, (dropLast_append_getLast (cons_ne_nil second txids)).symm⟩
    rw [hlast]
    refine (accident_iff h (first :: rest) last).trans ?_
    constructor
    · intro haccident
      exact .inr (.inr ⟨first, rest, last, rfl, haccident⟩)
    · rintro (hnil | ⟨txid, heq, -⟩ | ⟨_, _, _, heq, haccident⟩)
      · cases hnil
      · simp at heq
      · obtain ⟨rfl, htail⟩ := cons.inj heq
        obtain ⟨rfl, hsame⟩ := append_inj' htail rfl
        obtain rfl := singleton_inj.mp hsame
        exact haccident

/-! ## Submitted blocks -/

theorem byteSwap_eq_iff (value : Uint32) : byteSwap value = value ↔ ReadsBothWays value := by
  have hlength : (writeBits value).reverse.length = 32 / 8 := by rw [length_reverse, writeBits_length]
  unfold byteSwap ReadsBothWays hexOf
  constructor
  · intro h
    rw [← writeBits_leValue (by decide) hlength, h]
  · intro h
    rw [h]
    unfold Wire.writeBits
    rw [leValue_leBytes value.isLt, BitVec.ofNat_toNat, BitVec.setWidth_eq]

inductive Reachable (poolAddress sessionId : String) : Miner → Prop
  | new (extranonce1 : List UInt8) : Reachable poolAddress sessionId { extranonce1 }
  | authorize {miner : Miner} (minerWallet : Option String) (h : Reachable poolAddress sessionId miner) :
    Reachable poolAddress sessionId { miner with minerWallet }
  | sendJob {miner : Miner} (template : Template) (h : Reachable poolAddress sessionId miner) :
    Reachable poolAddress sessionId (sendJob poolAddress sessionId miner template)

theorem Reachable.jobs {sessionId : String} (h : Reachable poolAddress sessionId miner) :
    ∀ entry ∈ miner.jobs, ∃ minerWallet, makeJob poolAddress minerWallet entry.2.template = some entry.2 := by
  induction h with
  | new extranonce1 => simp
  | authorize minerWallet h ih => exact ih
  | @sendJob miner template h ih =>
    unfold Pool.sendJob
    cases hmake : makeJob poolAddress miner.minerWallet template with
    | none => exact ih
    | some job =>
      intro entry hentry
      rcases mem_append.mp hentry with hold | hnew
      · split at hold
        · exact ih entry (mem_of_mem_drop hold)
        · exact ih entry hold
      · obtain rfl := mem_singleton.mp hnew
        obtain ⟨_, -, hsome⟩ := Option.bind_eq_some_iff.mp hmake
        have htemplate : job.template = template := by
          cases hsome
          rfl
        exact ⟨miner.minerWallet, by rw [htemplate, hmake]⟩

/-- The header has the template's fields and the merkle root. -/
def Commits (template : Template) (coinbase block : List UInt8) : Prop :=
  ∃ header, readBlockHeader.run block = .ok (header, txCount (1 + template.transactions.length) ++ coinbase ++
      template.transactions.flatMap TemplateTx.data) ∧
    header.nVersion = template.version ∧ header.hashPrevBlock = template.previousblockhash ∧
      header.nBits = template.bits ∧
    header.hashMerkleRoot = computeMerkleRoot (ofBytes (sha256d coinbase) :: template.transactions.map TemplateTx.txid)

theorem handleSubmit_some {lowDifficulty : Nat → Bool} {jobId : String} {submission : Submission}
    (hfind : findJob miner jobId = some job)
    (hlow : lowDifficulty (leValue (sha256d (blockHeader miner job submission))) = false)
    (htarget : leValue (sha256d (blockHeader miner job submission)) < job.target.toNat) :
    handleSubmit lowDifficulty miner jobId submission =
      some (blockHeader miner job submission ++ blockBody miner job submission) := by
  unfold handleSubmit
  rw [hfind]
  simp only [Option.bind_eq_bind, Option.bind_some]
  rw [hlow, if_neg Bool.false_ne_true, if_pos htarget]

/-- It commits to its transactions just when reversal does no harm. -/
theorem submitted_commits_iff {poolAddress sessionId jobId : String} {miner : Miner} {lowDifficulty : Nat → Bool}
    {submission : Submission} {block : List UInt8} (hminer : Reachable poolAddress sessionId miner)
    (hblock : handleSubmit lowDifficulty miner jobId submission = some block) : ∃ job, findJob miner jobId = some job ∧
      (Commits job.template (coinbase miner job submission) block ↔ ReadsBothWays job.template.version ∧
          RootsAgree (sha256d (coinbase miner job submission)) (job.template.transactions.map TemplateTx.txid)) := by
  obtain ⟨job, hfind, hsubmit⟩ := Option.bind_eq_some_iff.mp hblock
  obtain ⟨_, _, hjobs, -⟩ := lookup_eq_some_iff.mp hfind
  obtain ⟨_, hmake⟩ := hminer.jobs (jobId, job) (by rw [hjobs]; simp)
  refine ⟨job, hfind, ?_⟩
  simp only at hsubmit
  split at hsubmit
  · cases hsubmit
  split at hsubmit
  · cases hsubmit
    have hread := readBlockHeader_blockHeader hmake miner submission (blockBody miner job submission)
    rw [← byteSwap_eq_iff, ← rootsAgree_iff (sha256d_length _)]
    unfold Commits
    rw [hread, map_map]
    constructor
    · rintro ⟨_, heq, hversion, -, -, hroot⟩
      obtain ⟨rfl, -⟩ := Prod.mk.inj (Except.ok.inj heq)
      exact ⟨hversion, hroot⟩
    · rintro ⟨hversion, hroot⟩
      exact ⟨_, rfl, hversion, rfl, rfl, hroot⟩
  · cases hsubmit

/-! ## Templates the pool gets right and wrong -/

def smallTemplate (version : Uint32) (transactions : List TemplateTx) : Template where
  version
  previousblockhash := 1
  transactions
  coinbasevalue := 5000000000
  target := 0x7fffff0000000000000000000000000000000000000000000000000000000000
  bits := 0x207fffff
  height := 1
  curtime := 1700000000

def smallMiner (template : Template) : Miner := sendJob "" "0000" { extranonce1 := [0, 0, 0, 1] } template

def smallSubmission (nonce : Uint32) : Submission := ⟨0, 1700000000, nonce⟩

theorem smallMiner_reachable (template : Template) : Reachable "" "0000" (smallMiner template) :=
  (Reachable.new _).sendJob template

def smallJob (template : Template) : Job := (makeJob "" none template).get rfl

theorem smallJob_made (template : Template) : makeJob "" none template = some (smallJob template) :=
  (Option.some_get _).symm

theorem smallJob_template (template : Template) : (smallJob template).template = template := rfl

theorem smallMiner_job (template : Template) : findJob (smallMiner template) "00000001" = some (smallJob template) := by
  unfold findJob smallMiner sendJob
  simp only [smallJob_made]
  rfl

def palindromicTemplate : Template :=
  smallTemplate 0x20000020 [⟨0x0500000000000000000000000000000000000000000000000000000000000005, []⟩]

/-- Version and hash read the same in both orders. -/
theorem palindromicTemplate_commits : ∃ job block, findJob (smallMiner palindromicTemplate) "00000001" = some job ∧
    handleSubmit (fun _ => false) (smallMiner palindromicTemplate) "00000001" (smallSubmission 3) = some block ∧
    Commits job.template (coinbase (smallMiner palindromicTemplate) job (smallSubmission 3)) block := by
  have hsubmit : (handleSubmit (fun _ => false) (smallMiner palindromicTemplate) "00000001"
      (smallSubmission 3)).isSome = true := by
    decide +kernel
  obtain ⟨block, hblock⟩ := Option.isSome_iff_exists.mp hsubmit
  obtain ⟨job, hfind, hiff⟩ := submitted_commits_iff (smallMiner_reachable _) hblock
  have hjob := hfind
  rw [smallMiner_job] at hjob
  cases hjob
  refine ⟨_, block, hfind, hblock, hiff.mpr ⟨?_, .inr (.inl ⟨_, rfl, .inl ?_⟩)⟩⟩
  · unfold ReadsBothWays
    decide
  · unfold ReadsBothWays
    decide

theorem small_committed {nonce : Uint32}
    (h : Commits template (coinbase (smallMiner template) (smallJob template) (smallSubmission nonce))
      (blockHeader (smallMiner template) (smallJob template) (smallSubmission nonce) ++
        blockBody (smallMiner template) (smallJob template) (smallSubmission nonce))) :
        byteSwap template.version = template.version ∧
      ofBytes (merkleRoot (sha256d (coinbase (smallMiner template) (smallJob template) (smallSubmission nonce)))
        (template.transactions.map fun tx => hexOf tx.txid)) =
      computeMerkleRoot (ofBytes
        (sha256d (coinbase (smallMiner template) (smallJob template) (smallSubmission nonce))) ::
        template.transactions.map TemplateTx.txid) := by
  obtain ⟨_, heq, hversion, -, -, hroot⟩ := h
  rw [readBlockHeader_blockHeader (smallJob_made template)] at heq
  obtain ⟨rfl, -⟩ := Prod.mk.inj (Except.ok.inj heq)
  exact ⟨hversion, hroot⟩

/-- The usual bits give another version, a transaction another root. -/
theorem smallTemplates_not_committed :
    (∃ job block, findJob (smallMiner (smallTemplate 0x20000000 [])) "00000001" = some job ∧
    handleSubmit (fun _ => false) (smallMiner (smallTemplate 0x20000000 [])) "00000001" (smallSubmission 0) =
      some block ∧
    ¬ Commits job.template (coinbase (smallMiner (smallTemplate 0x20000000 [])) job (smallSubmission 0)) block) ∧
    (∃ job block, findJob (smallMiner (smallTemplate 0x20000020 [⟨5, []⟩])) "00000001" = some job ∧
      handleSubmit (fun _ => false) (smallMiner (smallTemplate 0x20000020 [⟨5, []⟩])) "00000001"
        (smallSubmission 1) = some block ∧
      ¬ Commits job.template (coinbase (smallMiner (smallTemplate 0x20000020 [⟨5, []⟩])) job (smallSubmission 1))
        block) := by
  constructor
  · refine ⟨smallJob (smallTemplate 0x20000000 []), _, smallMiner_job _,
      handleSubmit_some (smallMiner_job _) rfl (by decide +kernel), ?_⟩
    rw [smallJob_template]
    intro h
    exact absurd (small_committed h).1 (by decide)
  · refine ⟨smallJob (smallTemplate 0x20000020 [⟨5, []⟩]), _, smallMiner_job _,
      handleSubmit_some (smallMiner_job _) rfl (by decide +kernel), ?_⟩
    rw [smallJob_template]
    intro h
    exact absurd (small_committed h).2 (by decide +kernel)

end FullNode.Pool
