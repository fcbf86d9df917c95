import FullNode.CoinSelection

/-! # Automatic selection of coins -/

namespace FullNode.CoinSelection

open OrderedIndex List OutputGroup

/-! ## `GroupOutputs` -/

structure Groups where
  positiveGroup : List OutputGroup := []
  mixedGroup : List OutputGroup := []

structure OutputGroupTypeMap where
  groupsByType : AssocMap OutputType Groups := ∅
  allGroups : Groups := {}

def Groups.push (group : OutputGroup) (insertPositive insertMixed : Bool) (groups : Groups) : Groups where
  positiveGroup := if insertPositive ∧ group.getSelectionAmount > 0 then groups.positiveGroup ++ [group]
    else groups.positiveGroup
  mixedGroup := if insertMixed then groups.mixedGroup ++ [group] else groups.mixedGroup

def OutputGroupTypeMap.push (group : OutputGroup) (type : OutputType) (insertPositive insertMixed : Bool)
    (groups : OutputGroupTypeMap) : OutputGroupTypeMap :=
  if group.outputs.isEmpty then groups
  else {
    groupsByType := groups.groupsByType.insert type
      (((groups.groupsByType.lookup type).getD {}).push group insertPositive insertMixed)
    allGroups := groups.allGroups.push group insertPositive insertMixed }

structure SelectionFilter where
  filter : CoinEligibilityFilter
  allowMixedOutputTypes : Bool := true
  deriving DecidableEq

/-- The groups under each filter, and those that no filter takes. -/
structure FilteredOutputGroups where
  groups : AssocMap CoinEligibilityFilter OutputGroupTypeMap := ∅
  discarded : List OutputGroup := []
  accepted : List OutputGroup := []

def accepting (filters : List SelectionFilter) (partialGroup : Bool)
    (group : OutputGroup) : List CoinEligibilityFilter :=
  (filters.map SelectionFilter.filter).filter fun filter =>
    group.eligibleForSpending filter && !(partialGroup && !filter.includePartialGroups)

def FilteredOutputGroups.offer (filters : List SelectionFilter) (type : OutputType)
    (insertPositive insertMixed partialGroup : Bool) (filtered : FilteredOutputGroups) (group : OutputGroup) :
    FilteredOutputGroups :=
  let taken := accepting filters partialGroup group
  { groups := taken.foldl (fun groups filter =>
      groups.insert filter (((groups.lookup filter).getD {}).push group type insertPositive insertMixed))
        filtered.groups
    discarded := if taken.isEmpty then filtered.discarded ++ [group] else filtered.discarded
    accepted := if taken.isEmpty then filtered.accepted else filtered.accepted ++ [group] }

/-- `getTransactionAncestry` of the node: ancestors and descendants. -/
abbrev Ancestry := Uint256 → Nat × Nat

variable {ρ : Type} (ancestry : Ancestry) (params : CoinSelectionParams) (filters : List SelectionFilter)

def offerCoin (filtered : FilteredOutputGroups) (coin : OutputType × COutput) : Checked FilteredOutputGroups := do
  let (ancestors, descendants) := ancestry coin.2.outpoint.hash
  let group ← (OutputGroup.new params).insert coin.2 ancestors descendants
  return filtered.offer filters coin.1 true true false group

abbrev ScriptPubKeyToOutgroup := AssocMap (CScript × OutputType) (List OutputGroup)

/-- `CScript` compares sizes first. -/
def scriptOrder (key : CScript × OutputType) : List Nat :=
  key.1.length :: key.1.map (·.toNat) ++ [OutputType.all.idxOf key.2]

/-- The last group with the script takes the coin, unless it is full. -/
def insertOutput (output : COutput) (type : OutputType) (ancestors descendants : Nat)
    (groupsMap : ScriptPubKeyToOutgroup) : Checked ScriptPubKeyToOutgroup := do
  let key := (output.txout.scriptPubKey, type)
  let groups := (groupsMap.lookup key).getD []
  let group := groups.getLastD (OutputGroup.new params)
  if group.outputs.length ≥ OUTPUT_GROUP_MAX_ENTRIES then do
    let group ← (OutputGroup.new params).insert output ancestors descendants
    return groupsMap.insert key (groups ++ [group])
  else do
    let group ← group.insert output ancestors descendants
    return groupsMap.insert key (groups.dropLast ++ [group])

/-- A coin of positive effective value goes into both maps. -/
def groupCoin (maps : ScriptPubKeyToOutgroup × ScriptPubKeyToOutgroup) (coin : OutputType × COutput) :
    Checked (ScriptPubKeyToOutgroup × ScriptPubKeyToOutgroup) := do
  let (ancestors, descendants) := ancestry coin.2.outpoint.hash
  let effectiveValue ← coin.2.getEffectiveValue
  let positive ← (if effectiveValue > 0 then insertOutput params coin.2 coin.1 ancestors descendants maps.1
      else .ok maps.1)
  let all ← insertOutput params coin.2 coin.1 ancestors descendants maps.2
  return (positive, all)

def offerGroups (positiveOnly : Bool) (groupsMap : ScriptPubKeyToOutgroup) (filtered : FilteredOutputGroups)
    (key : CScript × OutputType) : FilteredOutputGroups :=
  let groups := (groupsMap.lookup key).getD []
  match groups.reverse with
  | [] => filtered
  | last :: full =>
    full.foldl (fun filtered group => filtered.offer filters key.2 positiveOnly (!positiveOnly) false group)
      (filtered.offer filters key.2 positiveOnly (!positiveOnly) (groups.length > 1) last)

def pushOutputGroups (groupsMap : ScriptPubKeyToOutgroup) (positiveOnly : Bool) (filtered : FilteredOutputGroups) :
    FilteredOutputGroups :=
  (groupsMap.keys.foldr (insertNew scriptOrder) []).foldl (offerGroups filters positiveOnly groupsMap) filtered

def CoinsResult.typed (coins : CoinsResult) : List (OutputType × COutput) :=
  OutputType.all.flatMap fun type => (coins.coins type).map (type, ·)

def groupOutputs (coins : CoinsResult) : Checked FilteredOutputGroups :=
  if !params.avoidPartialSpends then coins.typed.foldlM (offerCoin ancestry params filters) {}
  else do
    let (positive, all) ← coins.typed.foldlM (groupCoin ancestry params) (∅, ∅)
    return pushOutputGroups filters positive true (pushOutputGroups filters all false {})

/-! ## `AutomaticCoinSelection` -/

structure Circumstances where
  ancestry : Ancestry
  limitAncestorCount : Nat
  limitDescendantCount : Nat
  rejectLongChains : Bool
  spendZeroConfChange : Bool

def Circumstances.maxAncestors (c : Circumstances) : Nat := max 1 c.limitAncestorCount
def Circumstances.maxDescendants (c : Circumstances) : Nat := max 1 c.limitDescendantCount

def orderedFilters (c : Circumstances) (params : CoinSelectionParams) : List SelectionFilter :=
  [{ filter := ⟨1, 6, 0, 0, false⟩, allowMixedOutputTypes := false }, { filter := ⟨1, 1, 0, 0, false⟩ }] ++
  if c.spendZeroConfChange then
    [{ filter := ⟨0, 1, 2, 2, false⟩ },
      { filter := ⟨0, 1, min 4 (c.maxAncestors / 3), min 4 (c.maxDescendants / 3), false⟩ },
      { filter := ⟨0, 1, c.maxAncestors / 2, c.maxDescendants / 2, false⟩ },
      { filter := ⟨0, 1, c.maxAncestors - 1, c.maxDescendants - 1, true⟩ }] ++
    (if params.includeUnsafeInputs then [{ filter := ⟨0, 0, c.maxAncestors - 1, c.maxDescendants - 1, true⟩ }]
      else []) ++
    if !c.rejectLongChains then [{ filter := ⟨0, 1, 2 ^ 64 - 1, 2 ^ 64 - 1, true⟩ }] else []
  else []

def longChainError : String :=
  "Unconfirmed UTXOs are available, but spending them creates a chain of transactions that will be rejected by the mempool"

/-- An error before the filters or a result after them. -/
inductive Selection (ρ : Type) where
  | early (error : String)
  | tried (result : Except String ρ)

def tryFilters (attempt : OutputGroupTypeMap → Bool → Except String ρ) (filtered : FilteredOutputGroups) :
    List SelectionFilter → Option String → Except String ρ
  | [], firstError => .error (firstError.getD "")
  | selectFilter :: filters, firstError =>
    match filtered.groups.lookup selectFilter.filter with
    | none => tryFilters attempt filtered filters firstError
    | some groups =>
      match attempt groups selectFilter.allowMixedOutputTypes with
      | .ok result => .ok result
      | .error e => tryFilters attempt filtered filters (if e = "" then firstError else firstError.or (some e))

def selectionAmounts (groups : List OutputGroup) : Int := (groups.map OutputGroup.getSelectionAmount).sum

def Circumstances.beyondLimits (c : Circumstances) (group : OutputGroup) : Bool :=
  group.ancestors ≥ c.maxAncestors || group.descendants ≥ c.maxDescendants

/-- What a selection starts from: the coins in grouping order. -/
def CoinsResult.prepared (rng : CoinsResult.Shuffler) (params : CoinSelectionParams)
    (coins : CoinsResult) : CoinsResult :=
  if params.avoidPartialSpends ∧ coins.size > OUTPUT_GROUP_MAX_ENTRIES then coins.shuffle rng else coins

/-- The condition that declares `total_amount` gives it the value of the comparison. -/
def selectWithFilters (c : Circumstances) (rng : CoinsResult.Shuffler) (availableCoins : CoinsResult)
    (valueToSelect : Int) (attempt : OutputGroupTypeMap → Bool → Except String ρ) : Checked (Selection ρ) := do
  let coins := availableCoins.prepared rng params
  let filtered ← groupOutputs c.ancestry params filters coins
  let totalDiscarded := selectionAmounts filtered.discarded
  let totalUnconfLongChain := selectionAmounts (filtered.discarded.filter c.beyondLimits)
  let totalAmount : Int := if coins.totalAmount - totalDiscarded < valueToSelect then 1 else 0
  if totalAmount ≠ 0 then
    if totalAmount + totalUnconfLongChain > valueToSelect then return .early longChainError
    else return .early ""
  else return .tried (tryFilters attempt filtered filters none)

def automaticCoinSelection (c : Circumstances) (rng : CoinsResult.Shuffler) (availableCoins : CoinsResult)
    (valueToSelect : Int) (attempt : OutputGroupTypeMap → Bool → Except String ρ) : Checked (Selection ρ) :=
  selectWithFilters params (orderedFilters c params) c rng availableCoins valueToSelect attempt

/-! ## The groups that the coins form -/

def joined (group : OutputGroup) (coin : COutput) : OutputGroup :=
  (group.insert coin (ancestry coin.outpoint.hash).1 (ancestry coin.outpoint.hash).2).toOption.getD group

/-- The last group takes the coin. A full one opens another. -/
def addToGroups (groups : List OutputGroup) (coin : COutput) : List OutputGroup :=
  let last := groups.getLastD (OutputGroup.new params)
  if last.outputs.length ≥ OUTPUT_GROUP_MAX_ENTRIES then groups ++ [joined ancestry (OutputGroup.new params) coin]
  else groups.dropLast ++ [joined ancestry last coin]

def scriptKey (typed : OutputType × COutput) : CScript × OutputType := (typed.2.txout.scriptPubKey, typed.1)

/-- The coins of one script and type. -/
def groupsOf (coins : List (OutputType × COutput)) (key : CScript × OutputType) : List OutputGroup :=
  ((coins.filter (scriptKey · = key)).map Prod.snd).foldl (addToGroups ancestry params) []

/-- The last of several groups may be partial. -/
def markPartial (groups : List OutputGroup) : List (OutputGroup × Bool) :=
  match groups.reverse with
  | [] => []
  | last :: full => (last, decide (groups.length > 1)) :: full.map (·, false)

def formedBy (coins : List (OutputType × COutput)) : List (OutputGroup × Bool) :=
  (coins.map scriptKey).dedup.flatMap fun key => markPartial (groupsOf ancestry params coins key)

def isPositive (typed : OutputType × COutput) : Bool := typed.2.effectiveValue.getD 0 > 0

/-- Each coin on its own, or the coins by script, all and positive. -/
def formed (coins : CoinsResult) : List (OutputGroup × Bool) :=
  if !params.avoidPartialSpends then coins.typed.map fun typed =>
    (joined ancestry (OutputGroup.new params) typed.2, false)
  else formedBy ancestry params coins.typed ++ formedBy ancestry params (coins.typed.filter isPositive)

def taken (group : OutputGroup × Bool) : Bool := !(accepting filters group.2 group.1).isEmpty

section Amounts

variable (c : Circumstances) (coins : CoinsResult)

def refusedGroups : List OutputGroup :=
  ((formed ancestry params coins).filter fun group => !taken filters group).map Prod.fst

/-- The coins that some filter takes in a group. -/
def heldValue : Int := totalValue (coins.all.filter fun coin =>
  (formed ancestry params coins).any fun group =>
    taken filters group && group.1.outputs.any (·.outpoint = coin.outpoint))

/-- What is left when every refused group is subtracted. -/
def remaining : Int := coins.totalAmount - selectionAmounts (refusedGroups ancestry params filters coins)

def longValue : Int := selectionAmounts ((refusedGroups ancestry params filters coins).filter c.beyondLimits)

end Amounts

/-- The target is in no gap: between what remains and what is taken, or the long chains alone and with that. -/
structure OutsideGaps (c : Circumstances) (coins : CoinsResult) (valueToSelect : Int) : Prop where
  enough : ¬(remaining c.ancestry params filters coins < valueToSelect ∧
    valueToSelect ≤ heldValue c.ancestry params filters coins)
  tells : remaining c.ancestry params filters coins < valueToSelect →
    ¬(longValue c.ancestry params filters c coins < valueToSelect ∧
        valueToSelect < heldValue c.ancestry params filters coins + longValue c.ancestry params filters c coins) ∧
      ¬(heldValue c.ancestry params filters coins + longValue c.ancestry params filters c coins ≤ valueToSelect ∧
        valueToSelect ≤ longValue c.ancestry params filters c coins)

/-! ## The early return -/

variable {ancestry params filters} {c : Circumstances} {rng : CoinsResult.Shuffler}
  {availableCoins coins : CoinsResult} {valueToSelect : Int}
  {attempt : OutputGroupTypeMap → Bool → Except String ρ} {filtered : FilteredOutputGroups} {coin : COutput}

def FilteredOutputGroups.covers (filtered : FilteredOutputGroups) (coin : COutput) : Bool :=
  filtered.accepted.any fun group => group.outputs.any fun output => output.outpoint = coin.outpoint

def acceptedValue (coins : CoinsResult) (filtered : FilteredOutputGroups) : Int :=
  totalValue (coins.all.filter filtered.covers)

def longChainAmount (c : Circumstances) (filtered : FilteredOutputGroups) : Int :=
  selectionAmounts (filtered.discarded.filter c.beyondLimits)

/-- It gives up early only when the coins fall short, and tells of long chains when they would help. -/
structure Justified (c : Circumstances) (coins : CoinsResult) (filtered : FilteredOutputGroups)
    (valueToSelect : Int) (result : Selection ρ) : Prop where
  short : ∀ error, result = .early error → acceptedValue coins filtered < valueToSelect
  longChain : ∀ error, result = .early error →
    (error = longChainError ↔ acceptedValue coins filtered + longChainAmount c filtered > valueToSelect)

theorem early_justified_iff (accepted : Int) {long target : Int} {result : Selection ρ} {tried : Except String ρ}
    {early : Prop} [Decidable early] (h : (if (if early then (1 : Int) else 0) ≠ 0 then
        if (if early then (1 : Int) else 0) + long > target then Except.ok (Selection.early longChainError)
          else .ok (.early "")
      else .ok (.tried tried)) = (.ok result : Checked (Selection ρ))) :
    ((∀ error, result = .early error → accepted < target) ∧
      ∀ error, result = .early error → (error = longChainError ↔ accepted + long > target)) ↔
    (early → accepted < target ∧ (target ≤ long ↔ target < accepted + long)) := by
  have hne : ("" : String) ≠ longChainError := by decide
  by_cases hearly : early
  · rw [if_pos hearly, if_pos one_ne_zero] at h
    by_cases hlong : 1 + long > target
    · rw [if_pos hlong] at h
      cases h
      have hreach : target ≤ long := by omega
      simp [hearly, hreach]
    · rw [if_neg hlong] at h
      cases h
      have hbelow : ¬target ≤ long := by omega
      simp [hearly, hbelow, hne]
  · rw [if_neg hearly, if_neg (by decide)] at h
    cases h
    simp [hearly]

/-! ## Grouping forms just these groups -/

variable {fee : Int} {typed : OutputType × COutput} {typedCoins done : List (OutputType × COutput)}
  {gs : List (OutputGroup × Bool)} {groupsMap : ScriptPubKeyToOutgroup}

theorem OutputGroup.insert_ok (group : OutputGroup) (hfee : coin.fee = some fee) (ancestors descendants : Nat) :
    ∃ coin' group', group.insert coin ancestors descendants = .ok group' ∧ coin'.outpoint = coin.outpoint ∧
      group'.outputs = group.outputs ++ [coin'] ∧ group'.subtractFeeOutputs = group.subtractFeeOutputs ∧
      group'.value = group.value + coin.txout.nValue ∧
        group'.effectiveValue = group.effectiveValue + (coin.txout.nValue - fee) := by
  unfold insert COutput.getFee COutput.getEffectiveValue COutput.effectiveValue
  simp only [hfee, Option.map_some, COutput.asserted, ok_bind]
  exact ⟨{ coin with
    longTermFee := if coin.inputBytes < 0 then 0 else MiniMiner.getFee group.longTermFeerate coin.inputBytes },
    _, rfl, rfl, by rw [hfee], rfl, rfl, rfl⟩

theorem insert_joined (ancestry : Ancestry) (group : OutputGroup) (hfee : coin.fee.isSome) :
    group.insert coin (ancestry coin.outpoint.hash).1 (ancestry coin.outpoint.hash).2 =
      .ok (joined ancestry group coin) := by
  obtain ⟨fee, hfee⟩ := Option.isSome_iff_exists.mp hfee
  obtain ⟨-, _, hgroup, -⟩ := insert_ok group hfee (ancestry coin.outpoint.hash).1 (ancestry coin.outpoint.hash).2
  unfold joined
  rw [hgroup]
  rfl

theorem mem_typed (h : typed ∈ coins.typed) : typed.2 ∈ coins.all := by
  unfold CoinsResult.typed at h
  obtain ⟨type, htype, h⟩ := mem_flatMap.mp h
  obtain ⟨_, hcoin, rfl⟩ := mem_map.mp h
  exact mem_flatMap.mpr ⟨type, htype, hcoin⟩

/-- The groups `gs` have been offered to the filters. -/
structure Offered (filters : List SelectionFilter) (gs : List (OutputGroup × Bool))
    (filtered : FilteredOutputGroups) : Prop where
  accepted : filtered.accepted = (gs.filter (taken filters)).map Prod.fst
  discarded : filtered.discarded = (gs.filter fun group => !taken filters group).map Prod.fst

theorem Offered.offer (h : Offered filters gs filtered) (type : OutputType) (insertPositive insertMixed : Bool)
    (group : OutputGroup × Bool) :
    Offered filters (gs ++ [group]) (filtered.offer filters type insertPositive insertMixed group.2 group.1) := by
  constructor
  · simp only [FilteredOutputGroups.offer, h.accepted, filter_append, map_append, filter_singleton, taken]
    cases (accepting filters group.2 group.1).isEmpty with
    | true => simp
    | false => simp
  · simp only [FilteredOutputGroups.offer, h.discarded, filter_append, map_append, filter_singleton, taken,
      Bool.not_not]
    cases (accepting filters group.2 group.1).isEmpty with
    | true => simp
    | false => simp

theorem Offered.offerAll (h : Offered filters gs filtered) (type : OutputType) (insertPositive insertMixed : Bool)
    (groups : List OutputGroup) :
    Offered filters (gs ++ groups.map (·, false))
      (groups.foldl (fun filtered group => filtered.offer filters type insertPositive insertMixed false group)
        filtered) := by
  induction groups generalizing gs filtered with
  | nil => simpa using h
  | cons group groups ih =>
    have hrest := ih (h.offer type insertPositive insertMixed (group, false))
    rwa [append_assoc] at hrest

/-- The map holds the groups of the coins. -/
structure Holds (ancestry : Ancestry) (params : CoinSelectionParams) (typedCoins : List (OutputType × COutput))
    (groupsMap : ScriptPubKeyToOutgroup) : Prop where
  lookup : ∀ key, (groupsMap.lookup key).getD [] = groupsOf ancestry params typedCoins key
  mem : ∀ key, key ∈ groupsMap ↔ key ∈ typedCoins.map scriptKey

theorem Offered.offerGroups (h : Offered filters gs filtered) (hholds : Holds ancestry params typedCoins groupsMap)
    (positiveOnly : Bool) (key : CScript × OutputType) :
    Offered filters (gs ++ markPartial (groupsOf ancestry params typedCoins key))
      (offerGroups filters positiveOnly groupsMap filtered key) := by
  rw [← hholds.lookup]
  unfold CoinSelection.offerGroups markPartial
  dsimp only
  split
  · simpa using h
  · next last full _ =>
    have hlast := h.offer key.2 positiveOnly (!positiveOnly) (last,
        decide (((groupsMap.lookup key).getD []).length > 1))
    have hall := hlast.offerAll key.2 positiveOnly (!positiveOnly) full
    rwa [append_assoc] at hall

theorem groupsOf_append (typed : OutputType × COutput) (key : CScript × OutputType) :
    groupsOf ancestry params (typedCoins ++ [typed]) key =
      if scriptKey typed = key then addToGroups ancestry params (groupsOf ancestry params typedCoins key) typed.2
      else groupsOf ancestry params typedCoins key := by
  unfold groupsOf
  by_cases hkey : scriptKey typed = key
  · simp [filter_append, hkey]
  · simp [filter_append, hkey]

theorem insertOutput_spec (h : Holds ancestry params typedCoins groupsMap) (hfee : typed.2.fee.isSome) :
    ∃ groupsMap', insertOutput params typed.2 typed.1 (ancestry typed.2.outpoint.hash).1
      (ancestry typed.2.outpoint.hash).2
        groupsMap = .ok groupsMap' ∧ Holds ancestry params (typedCoins ++ [typed]) groupsMap' := by
  have hlookup := h.lookup (scriptKey typed)
  have hinsert : insertOutput params typed.2 typed.1 (ancestry typed.2.outpoint.hash).1
      (ancestry typed.2.outpoint.hash).2 groupsMap = .ok (groupsMap.insert (scriptKey typed)
        (addToGroups ancestry params (groupsOf ancestry params typedCoins (scriptKey typed)) typed.2)) := by
    unfold insertOutput addToGroups
    dsimp only
    rw [show (typed.2.txout.scriptPubKey, typed.1) = scriptKey typed from rfl, hlookup]
    split
    · rw [insert_joined ancestry _ hfee]
      rfl
    · rw [insert_joined ancestry _ hfee]
      rfl
  refine ⟨_, hinsert, fun key => ?_, fun key => ?_⟩
  · rw [groupsOf_append]
    by_cases hkey : scriptKey typed = key
    · subst hkey
      simp
    · rw [AList.lookup_insert_ne (Ne.symm hkey), h.lookup, if_neg hkey]
  · rw [AList.mem_insert, h.mem, map_append, mem_append, map_cons, map_nil, mem_singleton, or_comm]

theorem pushOutputGroups_offered (hholds : Holds ancestry params typedCoins groupsMap) (h : Offered filters gs filtered)
    (positiveOnly : Bool) : ∃ gs', gs'.Perm (formedBy ancestry params typedCoins) ∧
      Offered filters (gs ++ gs') (pushOutputGroups filters groupsMap positiveOnly filtered) := by
  have hkeys : (groupsMap.keys.foldr (insertNew scriptOrder) []).Nodup ∧
      ∀ key, key ∈ groupsMap.keys.foldr (insertNew scriptOrder) [] ↔ key ∈ groupsMap.keys := by
    induction groupsMap.keys with
    | nil => simp
    | cons key keys ih =>
      refine ⟨insertNew_nodup ih.1, fun key' => ?_⟩
      rw [foldr_cons, mem_insertNew, ih.2, mem_cons]
  have hall (keys : List (CScript × OutputType)) {gs filtered} (h : Offered filters gs filtered) :
      Offered filters (gs ++ keys.flatMap fun key => markPartial (groupsOf ancestry params typedCoins key))
        (keys.foldl (offerGroups filters positiveOnly groupsMap) filtered) := by
    induction keys generalizing gs filtered with
    | nil => simpa using h
    | cons key keys ih =>
      have hrest := ih (h.offerGroups hholds positiveOnly key)
      rwa [append_assoc] at hrest
  refine ⟨_, Perm.flatMap ((perm_ext_iff_of_nodup hkeys.1 (nodup_dedup _)).mpr fun key => ?_) fun _ _ =>
    .refl _, hall _ h⟩
  rw [hkeys.2, mem_dedup, ← hholds.mem]
  exact AList.mem_keys.symm

variable (ancestry params filters) in
/-- The groups are those the coins form, in some order. -/
theorem groupOutputs_spec (hfees : ∀ coin ∈ coins.all, coin.fee.isSome) : ∃ filtered gs,
    groupOutputs ancestry params filters coins = .ok filtered ∧ gs.Perm (formed ancestry params coins) ∧
      Offered filters gs filtered := by
  have hnone : Offered filters [] {} := ⟨rfl, rfl⟩
  unfold groupOutputs formed
  split
  · obtain ⟨filtered, hfold, hoffered⟩ := foldlM_rule (f := offerCoin ancestry params filters) (l := coins.typed)
      (I := fun done => Offered filters (done.map fun typed => (joined ancestry (new params) typed.2, false)))
      (fun done typed filtered htyped h => by
        refine ⟨_, ?_, by
          rw [map_append]
          exact h.offer typed.1 true true (joined ancestry (new params) typed.2, false)⟩
        unfold offerCoin
        dsimp only
        rw [insert_joined ancestry _ (hfees _ (mem_typed htyped))]
        rfl) hnone
    exact ⟨filtered, _, hfold, .refl _, hoffered⟩
  · obtain ⟨maps, hfold, hpositive, hall⟩ := foldlM_rule (f := groupCoin ancestry params) (l := coins.typed)
      (I := fun done maps => Holds ancestry params (done.filter isPositive) maps.1 ∧ Holds ancestry params done maps.2)
      (fun done typed maps htyped ⟨hpositive, hall⟩ => by
        have hfee := hfees _ (mem_typed htyped)
        obtain ⟨fee, hsome⟩ := Option.isSome_iff_exists.mp hfee
        obtain ⟨all, hinsert, hall'⟩ := insertOutput_spec hall hfee
        have heffective : typed.2.effectiveValue = some (typed.2.txout.nValue - fee) := by
          rw [COutput.effectiveValue, hsome]
          rfl
        unfold groupCoin COutput.getEffectiveValue
        rw [filter_append, filter_singleton, isPositive, heffective]
        dsimp only [COutput.asserted, Option.getD_some]
        rw [ok_bind]
        by_cases hvalue : typed.2.txout.nValue - fee > 0
        · obtain ⟨_, hinsert', hpositive'⟩ := insertOutput_spec hpositive hfee
          rw [if_pos hvalue, hinsert', ok_bind, hinsert, decide_eq_true hvalue]
          exact ⟨_, rfl, hpositive', hall'⟩
        · rw [if_neg hvalue, ok_bind, hinsert, decide_eq_false hvalue, cond_false, append_nil]
          exact ⟨_, rfl, hpositive, hall'⟩)
      (s := ((∅, ∅) : ScriptPubKeyToOutgroup × ScriptPubKeyToOutgroup))
      ⟨⟨fun key => rfl, by simp⟩, ⟨fun key => rfl, by simp⟩⟩
    rw [hfold]
    obtain ⟨gs, hgs, hoffered⟩ := pushOutputGroups_offered hall hnone false
    obtain ⟨_, hgs', hoffered'⟩ := pushOutputGroups_offered hpositive hoffered true
    exact ⟨_, _, rfl, hgs.append hgs', hoffered'⟩

/-! ## When giving up early is justified -/

theorem prepared_perm : (availableCoins.prepared rng params).all.Perm availableCoins.all := by
  unfold CoinsResult.prepared
  split
  · refine Perm.flatMap (.refl _) ?_
    intro type _
    exact rng.perm type _
  · exact .refl _

section Sums

variable (hperm : gs.Perm (formed ancestry params coins)) (hoffered : Offered filters gs filtered)
include hperm hoffered

theorem acceptedValue_eq : acceptedValue coins filtered = heldValue ancestry params filters coins := by
  unfold acceptedValue heldValue FilteredOutputGroups.covers
  congr 2
  funext coin
  rw [hoffered.accepted, any_map, any_filter, hperm.any_eq]
  rfl

theorem discarded_perm : filtered.discarded.Perm (refusedGroups ancestry params filters coins) := by
  rw [hoffered.discarded]
  exact (hperm.filter _).map _

theorem longValue_eq :
    selectionAmounts (filtered.discarded.filter c.beyondLimits) = longValue ancestry params filters c coins :=
  (((discarded_perm hperm hoffered).filter _).map _).sum_eq

theorem remaining_eq : coins.totalAmount - selectionAmounts filtered.discarded =
    remaining ancestry params filters coins := by
  unfold remaining selectionAmounts
  rw [((discarded_perm hperm hoffered).map _).sum_eq]

theorem justified_iff {result : Selection ρ} : Justified c coins filtered valueToSelect result ↔
    (∀ error, result = .early error → heldValue ancestry params filters coins < valueToSelect) ∧
      ∀ error, result = .early error → (error = longChainError ↔
        heldValue ancestry params filters coins + longValue ancestry params filters c coins > valueToSelect) := by
  rw [← acceptedValue_eq hperm hoffered, ← longValue_eq hperm hoffered]
  exact ⟨fun h => ⟨h.short, h.longChain⟩, fun h => ⟨h.1, h.2⟩⟩

end Sums

variable (params filters c rng valueToSelect attempt) in
theorem outsideGaps_iff (hfees : ∀ coin ∈ availableCoins.all, coin.fee.isSome) :
    ∃ filtered result, groupOutputs c.ancestry params filters (availableCoins.prepared rng params) = .ok filtered ∧
      selectWithFilters params filters c rng availableCoins valueToSelect attempt = .ok result ∧
      (Justified c (availableCoins.prepared rng params) filtered valueToSelect result ↔
        OutsideGaps params filters c (availableCoins.prepared rng params) valueToSelect) := by
  have hprepared : (availableCoins.prepared rng params).all.Perm availableCoins.all := prepared_perm
  obtain ⟨filtered, _, hgrouped, hperm, hoffered⟩ := groupOutputs_spec c.ancestry params filters
    fun coin hcoin => hfees coin (hprepared.mem_iff.mp hcoin)
  obtain ⟨result, hrun⟩ : ∃ result, selectWithFilters params filters c rng availableCoins valueToSelect attempt =
      .ok result := by
    unfold selectWithFilters
    dsimp only
    rw [hgrouped, ok_bind]
    split_ifs
    all_goals exact ⟨_, rfl⟩
  refine ⟨filtered, result, hgrouped, hrun, ?_⟩
  unfold selectWithFilters at hrun
  simp only [hgrouped, ok_bind, remaining_eq hperm hoffered, longValue_eq hperm hoffered] at hrun
  have hiff := early_justified_iff
    (heldValue c.ancestry params filters (availableCoins.prepared rng params)) hrun
  rw [justified_iff hperm hoffered, hiff]
  constructor
  · intro hearly
    exact ⟨fun ⟨hless, henough⟩ => not_lt.mpr henough (hearly hless).1, fun hless => by have := (hearly hless).2; omega⟩
  · rintro ⟨henough, _⟩ hless
    omega

/-! ## Coins on their own are counted once -/

theorem typed_snd : (coins.typed.map fun typed => typed.2) = coins.all := by
  unfold CoinsResult.typed CoinsResult.all
  rw [map_flatMap]
  congr 1
  funext type
  rw [map_map]
  exact map_id _

variable (ancestry params filters) in
theorem amounts_le (hfees : ∀ coin ∈ coins.all, ∃ fee, coin.fee = some fee ∧ 0 ≤ fee) (held : COutput → Bool)
    (hheld : ∀ typed ∈ coins.typed,
      held typed.2 = taken filters (joined ancestry (OutputGroup.new params) typed.2, false)) :
    totalValue (coins.all.filter held) + selectionAmounts (((coins.typed.map fun typed =>
        (joined ancestry (OutputGroup.new params) typed.2, false)).filter fun group =>
          !taken filters group).map Prod.fst) ≤
      totalValue coins.all := by
  replace hfees : ∀ typed ∈ coins.typed, ∃ fee, typed.2.fee = some fee ∧ 0 ≤ fee :=
    fun typed htyped => hfees _ (mem_typed htyped)
  rw [← typed_snd]
  generalize coins.typed = l at hheld hfees ⊢
  induction l with
  | nil => rfl
  | cons typed rest ih =>
    have hrest := ih (fun t ht => hheld t (mem_cons_of_mem _ ht)) fun t ht => hfees t (mem_cons_of_mem _ ht)
    obtain ⟨fee, hfee, _⟩ := hfees typed mem_cons_self
    obtain ⟨-, group, hgroup, -, -, _, hvalue, heffective⟩ := insert_ok (new params) hfee
      (ancestry typed.2.outpoint.hash).1 (ancestry typed.2.outpoint.hash).2
    have hamount : (joined ancestry (new params) typed.2).getSelectionAmount ≤ typed.2.txout.nValue := by
      rw [joined, hgroup]
      have hzero : (new params).value = 0 ∧ (new params).effectiveValue = 0 := ⟨rfl, rfl⟩
      simp only [Except.toOption, Option.getD_some, getSelectionAmount, hvalue, heffective, hzero]
      split
      · omega
      · omega
    unfold totalValue selectionAmounts at hrest ⊢
    simp only [map_cons, filter_cons, hheld typed mem_cons_self]
    cases taken filters (joined ancestry (new params) typed.2, false) with
    | true =>
      simp only [if_true, Bool.not_true, Bool.false_eq_true, if_false, map_cons, sum_cons]
      omega
    | false =>
      simp only [if_true, Bool.not_false, Bool.false_eq_true, if_false, map_cons, sum_cons]
      omega

theorem heldValue_le_remaining (hsingle : params.avoidPartialSpends = false)
    (hfees : ∀ coin ∈ coins.all, ∃ fee, coin.fee = some fee ∧ 0 ≤ fee)
    (hdistinct : (coins.all.map COutput.outpoint).Nodup) :
    heldValue ancestry params filters coins ≤ remaining ancestry params filters coins := by
  have hformed : formed ancestry params coins =
      coins.typed.map fun typed => (joined ancestry (new params) typed.2, false) := by rw [formed, hsingle]; rfl
  have hsum := amounts_le ancestry params filters hfees
    (fun coin => (formed ancestry params coins).any fun group =>
      taken filters group && group.1.outputs.any (·.outpoint = coin.outpoint)) fun typed htyped => ?_
  · rw [← hformed] at hsum
    have htotal : coins.totalAmount = totalValue coins.all := coins.total_eq
    unfold heldValue remaining refusedGroups
    omega
  · have houtpoint (other : OutputType × COutput) (hother : other ∈ coins.typed) :
        (joined ancestry (new params) other.2).outputs.any (·.outpoint = typed.2.outpoint) =
          decide (other = typed) := by
      obtain ⟨fee, hfee, -⟩ := hfees other.2 (mem_typed hother)
      obtain ⟨_, group, hgroup, hsame, houtputs, -⟩ := insert_ok (new params) hfee
        (ancestry other.2.outpoint.hash).1 (ancestry other.2.outpoint.hash).2
      rw [joined, hgroup]
      rw [← typed_snd, map_map] at hdistinct
      simp only [Except.toOption, Option.getD_some, houtputs, new, nil_append, any_cons, any_nil, Bool.or_false, hsame]
      exact decide_eq_decide.mpr ⟨inj_on_of_nodup_map hdistinct hother htyped, fun h => by rw [h]⟩
    rw [hformed, any_map, Bool.eq_iff_iff, any_eq_true]
    simp only [Function.comp_apply, Bool.and_eq_true]
    constructor
    · rintro ⟨other, hother, htaken, hsame⟩
      rw [houtpoint other hother, decide_eq_true_iff] at hsame
      rwa [hsame] at htaken
    · intro htaken
      exact ⟨typed, htyped, htaken, by rw [houtpoint typed htyped, decide_eq_true_iff]⟩

variable (params filters c rng valueToSelect attempt)

/-- The selection gives up justly unless the target lies in a gap. With each coin on its own only
the second kind occurs. -/
theorem selectWithFilters_justified_iff (hfees : ∀ coin ∈ availableCoins.all, ∃ fee, coin.fee = some fee ∧ 0 ≤ fee) :
    ∃ filtered result, groupOutputs c.ancestry params filters (availableCoins.prepared rng params) = .ok filtered ∧
      selectWithFilters params filters c rng availableCoins valueToSelect attempt = .ok result ∧
      (Justified c (availableCoins.prepared rng params) filtered valueToSelect result ↔
        OutsideGaps params filters c (availableCoins.prepared rng params) valueToSelect) ∧
      (params.avoidPartialSpends = false → (availableCoins.all.map COutput.outpoint).Nodup →
        heldValue c.ancestry params filters (availableCoins.prepared rng params) ≤
          remaining c.ancestry params filters (availableCoins.prepared rng params)) := by
  have hset : ∀ coin ∈ availableCoins.all, coin.fee.isSome := by
    intro coin hcoin
    obtain ⟨fee, hfee, -⟩ := hfees coin hcoin
    rw [hfee]
    rfl
  obtain ⟨filtered, result, hgrouped, hrun, hiff⟩ := outsideGaps_iff params filters c rng valueToSelect
    attempt hset
  refine ⟨filtered, result, hgrouped, hrun, hiff, fun hsingle hdistinct =>
    heldValue_le_remaining hsingle (fun coin hcoin => ?_) ?_⟩
  · exact hfees coin (prepared_perm.mem_iff.mp hcoin)
  · exact ((prepared_perm.map _).nodup_iff).mpr hdistinct

def twoCoins : CoinsResult where
  coins
    | .legacy => [⟨⟨1, 0⟩, ⟨100000, [0x51]⟩, 10, 148, false, some 148, 0, 0⟩,
        ⟨⟨2, 0⟩, ⟨60000, [0x52]⟩, 0, 148, true, some 148, 0, 0⟩]
    | _ => []
  totalAmount := 160000
  total_eq := by decide

def longChain : Circumstances where
  ancestry hash := if hash = 2 then (30, 30) else (0, 0)
  limitAncestorCount := 25
  limitDescendantCount := 25
  rejectLongChains := true
  spendZeroConfChange := true

def groupedParams : CoinSelectionParams := ⟨10000, false, true, false⟩

def inOrder : CoinsResult.Shuffler := ⟨fun _ coins => coins, fun _ _ => .refl _⟩

def noAttempt (_ : OutputGroupTypeMap) (_ : Bool) : Except String Unit := .error ""

theorem twoCoins_fees : ∀ coin ∈ twoCoins.all, ∃ fee, coin.fee = some fee ∧ 0 ≤ fee := by
  have hall : (twoCoins.all.all fun coin => coin.fee = some 148) = true := by decide
  intro coin hcoin
  exact ⟨148, of_decide_eq_true (all_eq_true.mp hall coin hcoin), by omega⟩

/-- By script too, what remains is enough for a smaller target. -/
theorem twoCoins_tried : ∃ filtered result,
    groupOutputs longChain.ancestry groupedParams (orderedFilters longChain groupedParams) twoCoins = .ok filtered ∧
    automaticCoinSelection groupedParams longChain inOrder twoCoins 40000 noAttempt = .ok result ∧
    Justified longChain twoCoins filtered 40000 result := by
  obtain ⟨filtered, result, hgrouped, hrun, hiff, -⟩ := selectWithFilters_justified_iff groupedParams
    (orderedFilters longChain groupedParams) longChain inOrder 40000 noAttempt twoCoins_fees
  have hremaining : remaining longChain.ancestry groupedParams (orderedFilters longChain groupedParams) twoCoins =
      40296 := by decide
  refine ⟨filtered, result, hgrouped, hrun, hiff.mpr ?_⟩
  change OutsideGaps groupedParams (orderedFilters longChain groupedParams) longChain twoCoins 40000
  constructor
  · rw [hremaining]
    omega
  · rw [hremaining]
    omega

/-- The change is subtracted for each of its groups. -/
theorem twoCoins_refused : ∃ filtered result,
    groupOutputs longChain.ancestry groupedParams (orderedFilters longChain groupedParams) twoCoins = .ok filtered ∧
    automaticCoinSelection groupedParams longChain inOrder twoCoins 90000 noAttempt = .ok result ∧
    ¬Justified longChain twoCoins filtered 90000 result := by
  obtain ⟨filtered, result, hgrouped, hrun, hiff⟩ := outsideGaps_iff groupedParams
    (orderedFilters longChain groupedParams) longChain inOrder 90000 noAttempt
    fun coin (hcoin : coin ∈ twoCoins.all) => by
      obtain ⟨_, hfee, -⟩ := twoCoins_fees coin hcoin
      rw [hfee]
      rfl
  refine ⟨filtered, result, hgrouped, hrun, fun hjustified => (hiff.mp hjustified).enough ?_⟩
  change remaining longChain.ancestry groupedParams (orderedFilters longChain groupedParams) twoCoins < 90000 ∧
    90000 ≤ heldValue longChain.ancestry groupedParams (orderedFilters longChain groupedParams) twoCoins
  decide

end FullNode.CoinSelection
