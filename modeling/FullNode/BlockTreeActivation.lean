import FullNode.BlockTreeArrival

/-! # The best chain is activated -/

namespace FullNode.BlockTree

open Forest List

namespace Chainstate

variable {env : Env} {s s' t : Chainstate} {x y p start m front oldTip : Nat} {fuel : Nat}

/-! ## What a search leaves alone -/

/-- No candidate is added, and marks are on bad blocks only. -/
structure Narrows (env : Env) (s s' : Chainstate) : Prop where
  tree : SameTree s s'
  candidates : ∀ x ∈ s'.setBlockIndexCandidates, x ∈ s.setBlockIndexCandidates
  valid : ∀ a, s'.failedValid a = true → s.failedValid a = true ∨ ∃ c, Above s.pprev c a ∧ Rejects env c

namespace Narrows

theorem trans (h : Narrows env s s') (h' : Narrows env s' t) : Narrows env s t := by
  refine ⟨h.tree.trans h'.tree, fun x hx => h.candidates x (h'.candidates x hx), fun a ha => ?_⟩
  rcases h'.valid a ha with hold | hnew
  · exact h.valid a hold
  · rw [h.tree.pprev] at hnew
    exact .inr hnew

theorem of_eq (ht : SameTree s s') (hc : ∀ x ∈ s'.setBlockIndexCandidates, x ∈ s.setBlockIndexCandidates)
    (hv : s'.failedValid = s.failedValid) : Narrows env s s' := by
  refine ⟨ht, hc, fun a ha => .inl ?_⟩
  rwa [hv] at ha

theorem of_block (hi : s'.blockIndex = s.blockIndex) (hb : s'.block = s.block)
    (hc : ∀ x ∈ s'.setBlockIndexCandidates, x ∈ s.setBlockIndexCandidates) : Narrows env s s' :=
  of_eq (sameTree_of_block hi hb) hc (failedValid_of_block hb)

theorem refl (s : Chainstate) : Narrows env s s := of_block rfl rfl fun _ hx => hx

theorem judges (h : Narrows env s s') : Judges (Rejects env) s s' := .of_marked h.tree.blockIndex h.tree.pprev h.valid

end Narrows

/-- No candidate sorts after `m`. -/
def Best (s : Chainstate) (m : Ptr) : Prop := ∀ x ∈ s.setBlockIndexCandidates, s.comp m x = false

theorem Best.narrow (h : Best s m) (hn : Narrows env s s') : Best s' m := by
  intro x hx
  rw [hn.tree.comp]
  exact h x (hn.candidates x hx)

/-! ## The chain with the most work -/

/-- The invariant while the tip is behind the one at the start. -/
structure Searching (env : Env) (s : Chainstate) (start : Ptr) : Prop where
  inv : Inv env s start
  behind : s.tip = start ∨ s.comp s.tip start = true

namespace Searching

theorem complete (h : Searching env s start) (hx : x ∈ s.blockIndex) (hl : s.haveNumChainTxs x = true)
    (hf : s.failed x = false) (hc : s.comp x start = false) : x ∈ s.setBlockIndexCandidates := by
  refine h.inv.candidates.complete x hx hl hf hc ?_
  rcases h.behind with heq | hbehind
  · rwa [heq]
  · rw [← Bool.not_eq_true]
    intro hlt
    rw [comp_trans hlt hbehind] at hc
    cases hc

theorem start_mem (h : Searching env s start) : start ∈ s.setBlockIndexCandidates :=
  h.complete h.inv.start.usable.mem h.inv.start.usable.self.2 h.inv.start.usable.self.1 (comp_irrefl start)

theorem eraseCandidate (h : Searching env s start) (hx : s.failed x = true) :
    Searching env (s.eraseCandidate x) start := by
  refine ⟨h.inv.of_block rfl rfl rfl rfl h.inv.tip ?_, h.behind⟩
  refine h.inv.candidates.fewer (sameTree_of_block rfl rfl) (marks_of_block rfl) rfl
    (fun y hy => (mem_filter.mp hy).1) fun y hy hf _ => ?_
  refine mem_filter.mpr ⟨hy, decide_eq_true ?_⟩
  rintro rfl
  have hunmarked : s.failed y = false := hf
  rw [hx] at hunmarked
  cases hunmarked

end Searching

theorem findUnusable_usable (ht : Tree env s) (hd : Data s []) (hx : Usable s x) : s.findUnusable x = .ok none := by
  unfold findUnusable
  split
  · rfl
  · next y hclimb =>
    obtain ⟨hy, hstop⟩ := climb_some hclimb
    obtain ⟨hunmarked, hl⟩ := hx.way y hy
    have hmem := ht.mem_above hy hx.mem
    have hdata := (hd.have_iff y hmem).mpr (hd.of_linked y hmem hl).1
    rw [hunmarked, hl, hdata] at hstop
    simp only [Bool.true_or, Bool.not_true, Bool.or_false] at hstop
    rw [if_pos hstop]

theorem findUnusable_failed (ht : Tree env s) (htip : Usable s s.tip) (hl : s.haveNumChainTxs x = true)
    (hf : s.failed x = true) : s.findUnusable x = .ok (some x) := by
  have hnot : s.contains x = false := by
    rw [← Bool.not_eq_true, ht.contains_iff]
    intro habove
    rw [(htip.way x habove).1] at hf
    cases hf
  unfold findUnusable climb
  simp [hnot, hl, hf]

theorem removeChain_self (hf : s.failed x = true) : s.removeChain x x = s.eraseCandidate x := by
  unfold removeChain eraseCandidate
  rw [wayTo_stop (by simp)]
  simp [hf]

/-- What is found is usable, and no candidate sorts after it. -/
theorem findMostWorkChain_spec {found : Option Ptr} (hs : Searching env s start)
    (h : findMostWorkChain fuel s = .ok (s', found)) :
    Searching env s' start ∧ Narrows env s s' ∧ ∃ m, found = some m ∧ Usable s' m ∧ Best s' m := by
  induction fuel generalizing s with
  | zero => cases h
  | succ fuel ih =>
    unfold findMostWorkChain at h
    split at h
    · next hnone =>
      have hempty := bestCandidate_none hnone
      have hmem := hs.start_mem
      rw [hempty] at hmem
      cases hmem
    · next best hbest =>
      obtain ⟨hmem, hmax⟩ := bestCandidate_some hbest
      obtain ⟨hindex, hl⟩ := hs.inv.candidates.linked best hmem
      by_cases hf : s.failed best = true
      · rw [findUnusable_failed hs.inv.tree hs.inv.tip.usable hl hf, ok_bind] at h
        dsimp only at h
        rw [removeChain_self hf] at h
        obtain ⟨hsearch, hnarrows, hfound⟩ := ih (hs.eraseCandidate hf) h
        have herase : Narrows env s (s.eraseCandidate best) := .of_block rfl rfl fun x hx => (mem_filter.mp hx).1
        exact ⟨hsearch, herase.trans hnarrows, hfound⟩
      · have husable := hs.inv.flags.usable hs.inv.data hs.inv.tree hindex hl (by simpa using hf)
        rw [findUnusable_usable hs.inv.tree hs.inv.data husable, ok_bind] at h
        cases h
        exact ⟨hs, .refl _, best, rfl, husable, hmax⟩

/-! ## One step -/

theorem findFork_spec (ht : Tree env s) (h : s.findFork m = some x) : Above s.pprev x s.tip := by
  unfold findFork at h
  obtain ⟨_, -, hclimb⟩ := Option.bind_eq_some_iff.mp h
  exact ht.contains_iff.mp (climb_some hclimb).2

theorem disconnectTo_spec (h : disconnectTo x fuel s = .ok s') : s' = { s with tip := x } := by
  induction fuel generalizing s with
  | zero => cases h
  | succ fuel ih =>
    unfold disconnectTo at h
    split at h
    · next htip =>
      cases h
      rw [← htip]
    · obtain ⟨_, htip, hrest⟩ := bind_ok.mp h
      unfold disconnectTip at htip
      split at htip
      · cases htip
      · cases htip
        rw [ih hrest]

/-- The invariant while blocks on the way to `m` are connected. -/
structure Connecting (env : Env) (s : Chainstate) (start m : Ptr) : Prop where
  inv : Inv env s start
  target : Usable s m

theorem Searching.disconnect (hs : Searching env s start) (hm : Usable s m) (hx : Above s.pprev x s.tip) :
    Connecting env { s with tip := x } start m := by
  refine ⟨hs.inv.of_block rfl rfl rfl rfl (hs.inv.tip.above hs.inv.tree hx) ⟨hs.inv.candidates.linked, ?_⟩, ?_⟩
  · exact fun y hy hl hf hc _ => hs.complete hy hl hf hc
  · exact hm.of_le rfl rfl rfl fun _ hl => hl

theorem Connecting.connect (h : Connecting env s start m) (hp : s.pprev x = some s.tip) (hx : env.connects x = true)
    (hxm : Above s.pprev x m) (hs : SameTree s s') (hblock : s'.block = (s.setStatus x (.raiseValidity .scripts)).block)
    (htip : s'.tip = x) (hc : s'.setBlockIndexCandidates = s.setBlockIndexCandidates)
    (hu : s'.blocksUnlinked = s.blocksUnlinked) (hb : s'.failedBlocks = s.failedBlocks) :
    Connecting env s' start m := by
  have hv : s'.failedValid = s.failedValid := (failedValid_of_block hblock).trans failedValid_raiseValidity
  have hch : s'.failedChild = s.failedChild := (failedChild_of_block hblock).trans failedChild_raiseValidity
  have hfailed : s'.failed = s.failed := by
    funext y
    rw [failed_eq, hv, hch, failed_eq]
  have hactive : Active env s x := by
    refine ⟨h.target.above h.inv.tree hxm, fun a ha => ?_⟩
    rcases (above_iff_of_parent hp).mp ha with rfl | ha
    · exact .inr hx
    · exact h.inv.tip.connects a ha
  refine ⟨h.inv.same hs hv hch hu hb (htip ▸ hactive) ⟨?_, ?_⟩, ?_⟩
  · rw [hc, hs.blockIndex, hs.haveNumChainTxs]
    exact h.inv.candidates.linked
  · rw [hc, hs.blockIndex, hs.haveNumChainTxs, hfailed, hs.comp, htip]
    intro y hy hl hf hstart hyx
    refine h.inv.candidates.complete y hy hl hf hstart ?_
    -- What sorts before the old tip sorts before the new one.
    rw [← Bool.not_eq_true]
    intro hlt
    rw [comp_trans hlt (h.inv.tree.comp_of_strictlyAbove ⟨s.tip, hp, .refl _⟩)] at hyx
    cases hyx
  · refine h.target.of_le hs.blockIndex hs.pprev hfailed ?_
    rw [hs.haveNumChainTxs]
    exact fun _ hl => hl

theorem pruneBlockIndexCandidates_keeps (h : Connecting env s start m) (hok : s.pruneBlockIndexCandidates = .ok s') :
    Connecting env s' start m ∧ Narrows env s s' := by
  unfold pruneBlockIndexCandidates at hok
  obtain ⟨-, -, hrest⟩ := bind_ok.mp hok
  cases hrest
  have hnarrows : Narrows env s
      { s with setBlockIndexCandidates := s.setBlockIndexCandidates.filter fun y => !s.comp y s.tip } :=
    .of_block rfl rfl fun y hy => (mem_filter.mp hy).1
  refine ⟨⟨h.inv.of_block rfl rfl rfl rfl h.inv.tip ?_, h.target.of_le rfl rfl rfl fun _ hl => hl⟩, hnarrows⟩
  refine h.inv.candidates.fewer hnarrows.tree (marks_of_block rfl) rfl hnarrows.candidates fun y hy _ hc => ?_
  have hcomp : s.comp y s.tip = false := hc
  exact mem_filter.mpr ⟨hy, by rw [hcomp]; rfl⟩

theorem Inv.invalidBlockFound (h : Inv env s start) (hp : s.pprev x = some s.tip) (hx : env.connects x = false) :
    Inv env (s.invalidBlockFound x) start ∧ Narrows env s (s.invalidBlockFound x) ∧
      Invalidates s (s.invalidBlockFound x) x := by
  have hi : Invalidates s (s.invalidBlockFound x) x :=
    invalidates_markInvalid h.tree (.refl s) (.refl s) (h.tree.parent x s.tip hp).1
      (fun _ ha => .inl ha) rfl rfl rfl rfl
      rfl rfl rfl
  have hnarrows : Narrows env s (s.invalidBlockFound x) := by
    refine ⟨hi.tree, fun y hy => (mem_filter.mp hy).1, fun a ha => (hi.valid a ha).imp id fun habove => ?_⟩
    exact ⟨x, habove, h.tree.ne_genesis hp, hx⟩
  refine ⟨h.invalidate hi rfl ?_ ?_ ?_, hnarrows, hi⟩
  · intro habove
    rcases h.start.connects x habove with hnone | hconnects
    · rw [hp] at hnone
      cases hnone
    · rw [hx] at hconnects
      cases hconnects
  · intro habove
    have hle := habove.rank_le h.tree.ranked
    have hheight := (h.tree.parent x s.tip hp).2.2.1
    omega
  · refine h.candidates.fewer hi.tree hi.marks rfl hnarrows.candidates fun y hy hf _ => ?_
    refine mem_filter.mpr ⟨hy, decide_eq_true ?_⟩
    rintro rfl
    have hclosed := hi.closed.below y (.refl _)
    rw [hf] at hclosed
    cases hclosed

/-- The invariant, and a usable way to `m` unless one was invalid. -/
structure Connected (env : Env) (s s' : Chainstate) (start m : Ptr) (invalid : Prop) : Prop where
  inv : Inv env s' start
  narrows : Narrows env s s'
  target : ¬ invalid → Usable s' m

variable {invalid : Prop} {mostWork : Option Ptr}

theorem Connecting.connected (h : Connecting env s' start m) (hn : Narrows env s s') :
    Connected env s s' start m invalid := ⟨h.inv, hn, fun _ => h.target⟩

theorem Connected.after (h : Connected env t s' start m invalid) (hn : Narrows env s t) :
    Connected env s s' start m invalid := ⟨h.inv, hn.trans h.narrows, h.target⟩

theorem connectTip_keeps {connected : Bool} (h : Connecting env s start m) (hxm : Above s.pprev x m)
    (hok : s.connectTip env x = .ok (s', connected)) : (connected = true → Connecting env s' start m) ∧
      Narrows env s s' ∧
      (connected = false → Inv env s' start ∧ ∀ y, Above s.pprev x y → s'.failed y = true) := by
  unfold connectTip at hok
  obtain ⟨_, hcheck, hrest⟩ := bind_ok.mp hok
  have hp : s.pprev x = some s.tip := by simpa using check_ok.mp hcheck
  split at hrest
  · next hx =>
    cases hrest
    have hs : SameTree s { s.setStatus x (.raiseValidity .scripts) with tip := x } :=
      (sameTree_setStatus (keepsData_raiseValidity _) x).trans (sameTree_of_block rfl rfl)
    exact ⟨fun _ => h.connect hp hx hxm hs rfl rfl rfl rfl rfl,
      .of_eq hs (fun _ hy => hy) failedValid_raiseValidity, by simp⟩
  · next hx =>
    cases hrest
    obtain ⟨hinv, hnarrows, hi⟩ := h.inv.invalidBlockFound hp (by simpa using hx)
    refine ⟨by simp, hnarrows, fun _ => ⟨hinv, fun y hy => hi.closed.below y ?_⟩⟩
    rwa [hi.tree.pprev]

theorem connectBlocks_keeps {l : List Ptr} {progress : Progress} (h : Connecting env s start m)
    (hl : ∀ y ∈ l, Above s.pprev y m ∧ Above s.pprev y front)
    (hok : connectBlocks env front oldTip l s = .ok (s', progress)) :
    Connected env s s' start m (progress = .invalidFound) ∧ (progress = .all → Connecting env s' start m) := by
  induction l generalizing s with
  | nil =>
    cases hok
    exact ⟨h.connected (.refl _), fun _ => h⟩
  | cons x l ih =>
    unfold connectBlocks at hok
    obtain ⟨⟨t, connected⟩, hconnect, hrest⟩ := bind_ok.mp hok
    obtain ⟨hx, hfront⟩ := hl x mem_cons_self
    obtain ⟨hyes, hnarrows, hno⟩ := connectTip_keeps h hx hconnect
    cases connected with
    | false =>
      cases hrest
      obtain ⟨hinv, hclosed⟩ := hno rfl
      -- The front is built on `x`, so it is marked already.
      have hstays : t.invalidChainFound front = t := by
        refine setBlockFailureFlags_of_closed hinv.tree fun y hy => hclosed y ?_
        rw [hnarrows.tree.pprev] at hy
        exact hfront.trans hy
      rw [hstays]
      exact ⟨⟨hinv, hnarrows, fun hnot => absurd rfl hnot⟩, by simp⟩
    | true =>
      obtain ⟨_, hprune, hrest⟩ := bind_ok.mp hrest
      obtain ⟨hconnecting, hpruned⟩ := pruneBlockIndexCandidates_keeps (hyes rfl) hprune
      have hboth := hnarrows.trans hpruned
      split at hrest
      · cases hrest
        exact ⟨hconnecting.connected hboth, by simp⟩
      · obtain ⟨hconnected, hall⟩ := ih hconnecting (by
          rw [hboth.tree.pprev]
          exact fun y hy => hl y (mem_cons_of_mem _ hy)) hrest
        exact ⟨hconnected.after hboth, hall⟩

theorem above_of_mem_pathToConnect {nHeight nTargetHeight : Nat} :
    ∀ y ∈ (s.pathToConnect m nHeight nTargetHeight).reverse,
    Above s.pprev y m ∧ Above s.pprev y ((s.pathToConnect m nHeight nTargetHeight).headD m) := by
  intro y hy
  rw [mem_reverse] at hy
  unfold pathToConnect at hy ⊢
  cases hx : s.getAncestor m nTargetHeight with
  | none =>
    rw [hx] at hy
    cases hy
  | some x =>
    rw [hx] at hy
    have hyx := above_of_mem_wayTo hy
    dsimp only
    rw [head_wayTo hy]
    exact ⟨hyx.trans (climb_some hx).1, hyx⟩

theorem connectChunks_keeps {nHeight : Nat} {invalid : Bool} (h : Connecting env s start m)
    (hok : connectChunks env m oldTip fuel nHeight s = .ok (s', invalid)) :
    Connected env s s' start m (invalid = true) := by
  induction fuel generalizing s nHeight with
  | zero => cases hok
  | succ fuel ih =>
    unfold connectChunks at hok
    split at hok
    · cases hok
      exact h.connected (.refl _)
    · obtain ⟨⟨_, progress⟩, hblocks, hrest⟩ := bind_ok.mp hok
      obtain ⟨hconnected, hmore⟩ := connectBlocks_keeps h above_of_mem_pathToConnect hblocks
      cases progress with
      | all =>
        have hnext := hmore rfl
        exact (ih hnext hrest).after hconnected.narrows
      | better =>
        cases hrest
        exact ⟨hconnected.inv, hconnected.narrows, fun _ => hconnected.target (by simp)⟩
      | invalidFound =>
        cases hrest
        exact ⟨hconnected.inv, hconnected.narrows, fun hnot => absurd rfl hnot⟩

theorem activateBestChainStep_keeps {invalid : Bool} (hs : Searching env s start) (hm : Usable s m)
    (hok : s.activateBestChainStep env fuel m = .ok (s', invalid)) : Connected env s s' start m (invalid = true) := by
  unfold activateBestChainStep at hok
  split at hok
  · cases hok
  · next f hfork =>
    obtain ⟨_, hdisconnect, hconnect⟩ := bind_ok.mp hok
    rw [disconnectTo_spec hdisconnect] at hconnect
    have hconnecting := hs.disconnect hm (findFork_spec hs.inv.tree hfork)
    exact (connectChunks_keeps hconnecting hconnect).after (.of_block rfl rfl fun _ hx => hx)

/-! ## The rounds -/

theorem Inv.settle (h : Inv env s start) (hc : s.comp s.tip start = false) : Settled env s := by
  refine .intro h.tree h.data h.flags h.tip ⟨h.candidates.linked, fun x hx hl hf ht _ => ?_⟩
  exact h.candidates.complete x hx hl hf (comp_not_trans ht hc) ht

def Target (s : Chainstate) (mostWork : Option Ptr) : Prop := ∀ m, mostWork = some m → Usable s m ∧ Best s m

theorem activateRound_keeps {mostWork' : Option Ptr} {connected connected' : Bool} (hs : Searching env s start)
    (hm : Target s mostWork)
    (hok : activateRound env start fuel s mostWork connected = .ok (s', mostWork', connected')) :
    Settled env s' ∧ Narrows env s s' ∧ Target s' mostWork' ∧ (connected' = false → mostWork' = some s'.tip) := by
  induction fuel generalizing s mostWork connected with
  | zero => cases hok
  | succ fuel ih =>
    unfold activateRound at hok
    obtain ⟨⟨t, found⟩, hfind, hrest⟩ := bind_ok.mp hok
    have hfound : Searching env t start ∧ Narrows env s t ∧ ∃ m, found = some m ∧ Usable t m ∧ Best t m := by
      cases mostWork with
      | none => exact findMostWorkChain_spec hs hfind
      | some m =>
        cases hfind
        exact ⟨hs, .refl _, m, rfl, hm m rfl⟩
    obtain ⟨hsearch, hnarrows, m, rfl, husable, hbest⟩ := hfound
    have hcomp := hbest start hsearch.start_mem
    dsimp only at hrest
    split at hrest
    · next heq =>
      cases hrest
      subst heq
      refine ⟨hsearch.inv.settle hcomp, hnarrows, fun x hx => ?_, fun _ => rfl⟩
      cases hx
      exact ⟨husable, hbest⟩
    · obtain ⟨⟨u, invalid⟩, hstep, hrest⟩ := bind_ok.mp hrest
      have hconnected := activateBestChainStep_keeps hsearch husable hstep
      have hboth := hnarrows.trans hconnected.narrows
      have hcarried : Target u (if invalid then none else some m) := by
        intro x hx
        split at hx
        · cases hx
        · next hvalid =>
          cases hx
          exact ⟨hconnected.target hvalid, hbest.narrow hconnected.narrows⟩
      dsimp only at hrest
      split at hrest
      · next hbehind =>
        obtain ⟨hsettled, hrests, hnext⟩ := ih ⟨hconnected.inv, .inr hbehind⟩ hcarried hrest
        exact ⟨hsettled, hboth.trans hrests, hnext⟩
      · next hahead =>
        cases hrest
        exact ⟨hconnected.inv.settle (by simpa using hahead), hboth, hcarried, by simp⟩

theorem activateRounds_keeps (hs : Settled env s) (hm : Target s mostWork)
    (hok : activateRounds env fuel s mostWork = .ok s') : Settled env s' ∧ Narrows env s s' ∧ Best s' s'.tip := by
  induction fuel generalizing s mostWork with
  | zero => cases hok
  | succ fuel ih =>
    unfold activateRounds at hok
    obtain ⟨⟨_, _, _⟩, hround, hrest⟩ := bind_ok.mp hok
    obtain ⟨hsettled, hnarrows, htarget, hend⟩ := activateRound_keeps ⟨hs, .inl rfl⟩ hm hround
    dsimp only at hrest
    split at hrest
    · next hdone =>
      cases hrest
      exact ⟨hsettled, hnarrows, (htarget _ (hend (by simpa using hdone))).2⟩
    · split at hrest
      · next htip =>
        cases hrest
        exact ⟨hsettled, hnarrows, (htarget _ htip.symm).2⟩
      · obtain ⟨hagain, hmore, hbest⟩ := ih hsettled htarget hrest
        exact ⟨hagain, hnarrows.trans hmore, hbest⟩

theorem activateBestChain_keeps (hs : Settled env s) (hok : s.activateBestChain env fuel = .ok s') :
    Settled env s' ∧ Narrows env s s' ∧ Best s' s'.tip :=
  activateRounds_keeps hs (fun _ hm => by cases hm) hok

end Chainstate

end FullNode.BlockTree
