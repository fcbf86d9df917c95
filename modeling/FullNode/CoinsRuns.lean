import FullNode.CoinsRefinement

/-! # Runs of a layered cache -/

open List AList

namespace FullNode.CoinsView

open Function

variable {base base' : CoinsBase} {v : CoinsView} {o o' : COutPoint} {layer : Nat} {w : CoinsView}
  {cs : List CCoinsViewCache} {op : Op}

/-! ## Part of a stack -/

def below (v : CoinsView) (layer : Nat) : CoinsView := { v with caches := v.caches.drop layer }

theorem coherent_append (pre : List CCoinsViewCache) (h : Coherent base (pre ++ cs)) : Coherent base cs := by
  induction pre with
  | nil => exact h
  | cons c pre ih => exact ih h.1

theorem seen_append_of_eq {cs cs' : List CCoinsViewCache} (pre : List CCoinsViewCache)
    (h : seen base' o cs' = seen base o cs) : seen base' o (pre ++ cs') = seen base o (pre ++ cs) := by
  induction pre with
  | nil => exact h
  | cons c pre ih => exact seen_below ih

theorem seen_append_of_none {pre cs : List CCoinsViewCache} (h : ∀ c ∈ pre, c.find o = none) :
    seen base o (pre ++ cs) = seen base o cs := by
  induction pre with
  | nil => rfl
  | cons c pre ih =>
    rw [cons_append, seen_of_none (h c mem_cons_self)]
    exact ih fun d hd => h d (mem_cons_of_mem _ hd)

theorem coherent_append_of_seen {pre cs cs' : List CCoinsViewCache} (h : Coherent base (pre ++ cs))
    (h' : Coherent base' cs')
    (hseen : ∀ o, (∀ c ∈ pre, c.find o = none) ∨ seen base' o cs' = seen base o cs) : Coherent base' (pre ++ cs') := by
  induction pre with
  | nil => exact h'
  | cons c pre ih =>
    refine h.below (ih h.1 fun o => ?_) fun o ho => ?_
    · rcases hseen o with hnone | heq
      · exact Or.inl fun d hd => hnone d (mem_cons_of_mem _ hd)
      · exact Or.inr heq
    · rcases hseen o with hnone | heq
      · exact absurd (hnone c mem_cons_self) ho
      · exact seen_append_of_eq pre heq

theorem Valid.below (h : Valid v) (layer : Nat) : Valid (v.below layer) := by
  refine ⟨h.base, coherent_append (v.caches.take layer) ?_⟩
  rw [CoinsView.below, take_append_drop]
  exact h.coherent

def onto (v : CoinsView) (layer : Nat) (w : CoinsView) : CoinsView :=
  { w with caches := v.caches.take layer ++ w.caches }

theorem step_eq (layer : Nat) (op : Op) :
    v.step layer op = ((apply (v.below layer) op).1, v.onto layer (apply (v.below layer) op).2) := rfl

theorem onto_valid (h : Valid v) (hw : Valid w)
    (hpeek : ∀ o, (∀ c ∈ v.caches.take layer, c.find o = none) ∨ w.peek o = (v.below layer).peek o) :
    Valid (v.onto layer w) := by
  have hsplit : Coherent v.base (v.caches.take layer ++ v.caches.drop layer) := by
    rw [take_append_drop]
    exact h.coherent
  exact ⟨hw.base, coherent_append_of_seen hsplit hw.coherent hpeek⟩

theorem onto_peek_of_eq (hpeek : w.peek o = (v.below layer).peek o) :
    (v.onto layer w).peek o = v.peek o := by
  have hsplit := seen_append_of_eq (v.caches.take layer) hpeek
  have hcaches : v.caches.take layer ++ (v.below layer).caches = v.caches := take_append_drop _ _
  rw [hcaches] at hsplit
  exact hsplit

theorem onto_length (hlayer : layer ≤ v.caches.length)
    (hlen : w.caches.length = (v.below layer).caches.length) : (v.onto layer w).caches.length = v.caches.length := by
  simp only [onto, length_append, length_take, hlen, below, length_drop]
  omega

/-! ## Operations -/

def Op.writes (op : Op) (o : COutPoint) : Prop :=
  op = .spendCoin o ∨ ∃ coin n overwrite, op = .addCoin o coin n overwrite

structure Permitted (v : CoinsView) (layer : Nat) (op : Op) : Prop where
  layer_lt : layer < v.caches.length
  /-- A write is not below a cache that holds the outpoint. -/
  above : ∀ o, op.writes o → ∀ c ∈ v.caches.take layer, c.find o = none
  addCoin : ∀ o coin n overwrite, op = .addCoin o coin n overwrite →
    coin.isSpent = false ∧ (overwrite = false → (v.below layer).peek o = none)
  written : ∀ reply, op = .sync reply ∨ op = .flush reply → reply = .written
  not_emplace : ∀ o coin n, op ≠ .emplaceCoinInternalDANGER o coin n

def applyMap (m : COutPoint → Option Coin) : Op → COutPoint → Option Coin
  | .addCoin o coin _ _ =>
    if isUnspendable coin.out.scriptPubKey then m else Function.update m o (some coin)
  | .spendCoin o => Function.update m o none
  | _ => m

theorem applyMap_of_not_writes (m : COutPoint → Option Coin) (h : ¬ op.writes o) : applyMap m op o = m o := by
  cases op with
  | addCoin o1 coin n overwrite =>
    have hne : o ≠ o1 := by
      rintro rfl
      exact h (Or.inr ⟨coin, n, overwrite, rfl⟩)
    simp only [applyMap]
    split
    · rfl
    · rw [update_of_ne hne]
  | spendCoin o1 =>
    have hne : o ≠ o1 := by
      rintro rfl
      exact h (Or.inl rfl)
    simp only [applyMap]
    rw [update_of_ne hne]
  | _ => rfl

theorem applyMap_congr {m m' : COutPoint → Option Coin} (op : Op) (h : m o = m' o) :
    applyMap m op o = applyMap m' op o := by
  cases op with
  | addCoin o1 coin n overwrite =>
    simp only [applyMap]
    split
    · exact h
    · simp only [update_apply, h]
  | spendCoin o1 => simp only [applyMap, update_apply, h]
  | _ => exact h

theorem getCoinFrom_length (cs : List CCoinsViewCache) : (getCoinFrom base o cs).2.length = cs.length := by
  induction cs with
  | nil => rfl
  | cons c cs ih =>
    unfold getCoinFrom
    split <;> simp [ih]

theorem fetchCoin_length : (v.fetchCoin o).2.caches.length = v.caches.length := by
  obtain ⟨caches, _⟩ := v
  cases caches with
  | nil => rfl
  | cons c cs =>
    unfold fetchCoin
    cases hfind : c.find o <;> simp [hfind, getCoinFrom_length]

theorem onTop_length {α : Type} (a : α) (f : CCoinsViewCache → α × CCoinsViewCache) :
    (v.onTop a f).2.caches.length = v.caches.length := by
  obtain ⟨caches, _⟩ := v
  cases caches <;> rfl

theorem spendCoin_length : (v.spendCoin o).2.caches.length = v.caches.length := by
  have hlen := @fetchCoin_length v o
  unfold spendCoin
  rcases hr : v.fetchCoin o with ⟨_ | _, _⟩
  · rw [hr] at hlen
    exact hlen
  · rw [hr] at hlen
    simp only [onTop_length]
    exact hlen

theorem apply_spec (h : Valid v) (hop : Permitted v 0 op) : (apply v op).1 = .ok () ∧ Valid (apply v op).2 ∧
    (apply v op).2.caches.length = v.caches.length ∧ ∀ o, (apply v op).2.peek o = applyMap v.peek op o := by
  have hne : v.caches ≠ [] := ne_nil_of_length_pos hop.layer_lt
  cases op with
  | getCoin o =>
    obtain ⟨-, hvalid, hpeek⟩ := getCoin_spec h o
    exact ⟨rfl, hvalid, getCoinFrom_length _, hpeek⟩
  | haveCoin o =>
    obtain ⟨-, hvalid, -, hpeek⟩ := haveCoin_spec h o hne
    exact ⟨rfl, hvalid, fetchCoin_length, hpeek⟩
  | accessCoin o =>
    obtain ⟨-, hvalid, -, hpeek⟩ := accessCoin_spec h o hne
    exact ⟨rfl, hvalid, fetchCoin_length, hpeek⟩
  | addCoin o coin n overwrite =>
    obtain ⟨hun, hshow⟩ := hop.addCoin o coin n overwrite rfl
    obtain ⟨hok, hvalid, -, hpeek⟩ := addCoin_spec h hne hun n hshow
    refine ⟨hok, hvalid, onTop_length _ _, fun o' => ?_⟩
    simp only [apply, hpeek, applyMap]
    cases hscript : isUnspendable coin.out.scriptPubKey with
    | true => simp
    | false => simp [update_apply]
  | emplaceCoinInternalDANGER o coin n => exact absurd rfl (hop.not_emplace o coin n)
  | spendCoin o =>
    obtain ⟨-, hvalid, -, hpeek⟩ := spendCoin_spec h hne o
    refine ⟨rfl, hvalid, spendCoin_length, fun o' => ?_⟩
    simp only [apply, hpeek, applyMap, update_apply]
  | uncache o =>
    obtain ⟨hvalid, hlen, hpeek⟩ := uncache_spec h o
    exact ⟨rfl, hvalid, hlen, hpeek⟩
  | sync reply =>
    obtain rfl := hop.written reply (Or.inl rfl)
    obtain ⟨hok, hvalid, hlen, hpeek⟩ := sync_spec h hne
    exact ⟨by simp [apply, hok, Except.map], hvalid, hlen, hpeek⟩
  | flush reply =>
    obtain rfl := hop.written reply (Or.inr rfl)
    obtain ⟨_, _, hflush, hempty, hvalid, hlen, hpeek⟩ := flush_spec h hne
    refine ⟨by simp [apply, hflush, Except.map], ?_, ?_, fun o => ?_⟩
    · simp only [apply, hflush]
      exact ⟨hvalid.base, coherent_of_empty hempty hvalid.coherent⟩
    · simp only [apply, hflush, length_cons]
      exact hlen
    · simp only [apply, hflush]
      exact (peek_of_empty hempty o).trans (hpeek o)

theorem step_spec (h : Valid v) (hop : Permitted v layer op) :
    (v.step layer op).1 = .ok () ∧ Valid (v.step layer op).2 ∧ (v.step layer op).2.caches.length = v.caches.length ∧
      ∀ o, (v.step layer op).2.peek o = applyMap v.peek op o := by
  have hlt := hop.layer_lt
  have htop : Permitted (v.below layer) 0 op :=
    { layer_lt := by simp [below]; omega
      above := by simp
      addCoin := hop.addCoin
      written := hop.written
      not_emplace := hop.not_emplace }
  obtain ⟨hok, hvalid, hlen, hpeek⟩ := apply_spec (h.below layer) htop
  rw [step_eq]
  -- A write is seen through the caches above, and nothing else changes.
  refine ⟨hok, onto_valid h hvalid fun o => ?_, onto_length hlt.le hlen, fun o => ?_⟩
  · by_cases hwrite : op.writes o
    · exact Or.inl (hop.above o hwrite)
    · right
      rw [hpeek, applyMap_of_not_writes _ hwrite]
  · by_cases hwrite : op.writes o
    · have hnone := hop.above o hwrite
      have hbelow : (v.below layer).peek o = v.peek o := by
        have := @seen_append_of_none v.base o (v.caches.take layer) (v.caches.drop layer) hnone
        rw [take_append_drop] at this
        exact this.symm
      have honto : (v.onto layer (apply (v.below layer) op).2).peek o = (apply (v.below layer) op).2.peek o :=
          seen_append_of_none hnone
      rw [honto, hpeek]
      exact applyMap_congr op hbelow
    · rw [applyMap_of_not_writes _ hwrite]
      apply onto_peek_of_eq
      rw [hpeek, applyMap_of_not_writes _ hwrite]

/-! ## Runs -/

def run (v : CoinsView) : List (Nat × Op) → Except Fault CoinsView
  | [] => .ok v
  | (layer, op) :: ops =>
    match v.step layer op with
    | (.error f, _) => .error f
    | (.ok (), v') => run v' ops

def PermittedRun (v : CoinsView) : List (Nat × Op) → Prop
  | [] => True
  | (layer, op) :: ops => Permitted v layer op ∧ PermittedRun (v.step layer op).2 ops

def runMap (m : COutPoint → Option Coin) : List (Nat × Op) → COutPoint → Option Coin
  | [] => m
  | (_, op) :: ops => runMap (applyMap m op) ops

theorem run_spec {ops : List (Nat × Op)} (h : Valid v) (hops : PermittedRun v ops) :
    ∃ v', v.run ops = .ok v' ∧ Valid v' ∧ v'.caches.length = v.caches.length ∧ ∀ o,
      v'.peek o = runMap v.peek ops o := by
  induction ops generalizing v with
  | nil => exact ⟨v, rfl, h, rfl, fun _ => rfl⟩
  | cons p ops ih =>
    obtain ⟨layer, op⟩ := p
    obtain ⟨hop, hops⟩ := hops
    obtain ⟨hok, hvalid, hlen, hpeek⟩ := step_spec h hop
    obtain ⟨v', hrun, hvalid', hlen', hpeek'⟩ := ih hvalid hops
    refine ⟨v', ?_, hvalid', hlen'.trans hlen, fun o => ?_⟩
    · rw [run]
      rcases hr : v.step layer op with ⟨_, _⟩
      rw [hr] at hok hrun
      simp only at hok hrun ⊢
      subst hok
      exact hrun
    · rw [hpeek', runMap, funext hpeek]

def flushes (n : Nat) : List (Nat × Op) := (List.range n).map fun layer => (layer, .flush .written)

theorem run_append (ops ops' : List (Nat × Op)) {v' : CoinsView} (h : v.run ops = .ok v') :
    v.run (ops ++ ops') = v'.run ops' := by
  induction ops generalizing v with
  | nil =>
    cases h
    rfl
  | cons p ops ih =>
    obtain ⟨_, _⟩ := p
    rw [cons_append]
    rw [run] at h ⊢
    split
    · next hr =>
      rw [hr] at h
      cases h
    · next hr =>
      rw [hr] at h
      exact ih h

theorem permitted_flush (h : layer < v.caches.length) : Permitted v layer (.flush .written) where
  layer_lt := h
  above o hw := by
    rcases hw with hw | ⟨_, _, _, hw⟩ <;> cases hw
  addCoin _ _ _ _ hw := by cases hw
  written reply hw := by
    rcases hw with hw | hw <;> cases hw
    rfl
  not_emplace _ _ _ hw := by cases hw

theorem flush_empties (h : Valid v) (hlt : layer < v.caches.length)
    (hempty : ∀ c ∈ v.caches.take layer, c.cacheCoins = ∅) :
    ∀ c ∈ (v.step layer (.flush .written)).2.caches.take (layer + 1), c.cacheCoins = ∅ := by
  have hne : (v.below layer).caches ≠ [] := by
    apply ne_nil_of_length_pos
    simp [below]
    omega
  obtain ⟨c', v', hflush, hc', -, -, -⟩ := flush_spec (h.below layer) hne
  have hcaches : (v.step layer (.flush .written)).2.caches = v.caches.take layer ++ c' :: v'.caches := by
    rw [step_eq]
    simp [onto, apply, hflush]
  have hlen : (v.caches.take layer).length = layer := by
    rw [length_take]
    omega
  intro c hc
  rw [hcaches, take_append, hlen, mem_append] at hc
  rcases hc with hc | hc
  · exact hempty c (mem_of_mem_take hc)
  · simp only [Nat.add_sub_cancel_left, take_succ_cons, take_zero, mem_singleton] at hc
    rw [hc]
    exact hc'

theorem flushes_spec (h : Valid v) {n : Nat} (hn : n ≤ v.caches.length) :
    ∃ v', v.run (flushes n) = .ok v' ∧ Valid v' ∧ v'.caches.length = v.caches.length ∧
      (∀ o, v'.peek o = v.peek o) ∧ ∀ c ∈ v'.caches.take n, c.cacheCoins = ∅ := by
  induction n with
  | zero => exact ⟨v, rfl, h, rfl, fun _ => rfl, by simp⟩
  | succ n ih =>
    obtain ⟨w, hrun, hvalid, _, hpeek, hempty⟩ := ih (by omega)
    have hlt : n < w.caches.length := by omega
    obtain ⟨hok, hvalid', _, hpeek'⟩ := step_spec hvalid (permitted_flush hlt)
    have hlast : w.run [(n, .flush .written)] = .ok (w.step n (.flush .written)).2 := by
      unfold run
      rcases hr : w.step n (.flush .written) with ⟨_, _⟩
      rw [hr] at hok
      simp only at hok ⊢
      subst hok
      rfl
    have happend : flushes (n + 1) = flushes n ++ [(n, .flush .written)] := by
      simp [flushes, range_succ]
    refine ⟨(w.step n (.flush .written)).2, ?_, hvalid', by omega, fun o => ?_, flush_empties hvalid hlt hempty⟩
    · rw [happend, run_append _ _ hrun, hlast]
    · rw [hpeek' o]
      exact hpeek o

theorem seen_of_empty (h : ∀ c ∈ cs, c.cacheCoins = ∅) : seen base o cs = seen base o [] := by
  induction cs with
  | nil => rfl
  | cons c cs ih =>
    rw [peek_of_empty (h c mem_cons_self)]
    exact ih fun d hd => h d (mem_cons_of_mem _ hd)

theorem peek_of_base (h : BaseUnspent base) (o : COutPoint) : seen base o [] = base.coins.lookup o := by
  unfold seen
  cases hl : base.coins.lookup o with
  | none => rfl
  | some coin => exact unspent_eq_some (h o coin hl)

theorem Valid.fresh (h : Valid v) {c : CCoinsViewCache} {it : CCoinsCacheEntry}
    (hc : v.caches[layer]? = some c) (hit : c.find o = some it) (hf : it.fresh = true) :
    (v.below (layer + 1)).peek o = none := by
  obtain ⟨hlt, hget⟩ := List.getElem?_eq_some_iff.mp hc
  have hcoh := (h.below layer).coherent
  simp only [CoinsView.below, drop_eq_getElem_cons hlt, hget] at hcoh
  exact (hcoh.2 o it hit).fresh hf

def start (n : Nat) (base : CoinsBase) : CoinsView := ⟨List.replicate n CCoinsViewCache.new, base⟩

theorem start_valid (n : Nat) (h : BaseUnspent base) : Valid (start n base) := by
  refine ⟨h, ?_⟩
  have hcoh : ∀ n, Coherent base (replicate n CCoinsViewCache.new) := by
    intro n
    induction n with
    | zero => trivial
    | succ n ih => exact coherent_of_empty rfl ih
  exact hcoh n

theorem start_peek (n : Nat) (h : BaseUnspent base) (o : COutPoint) : (start n base).peek o = base.coins.lookup o := by
  have hempty : ∀ c ∈ (start n base).caches, c.cacheCoins = ∅ := by
    intro c hc
    rw [eq_of_mem_replicate hc]
    rfl
  exact (seen_of_empty hempty).trans (peek_of_base h o)

/-- A stack of caches runs as a map: nothing throws, FRESH has nothing below, and flushing stores it. -/
theorem layers_refine_map (n : Nat) {base : CoinsBase} (hbase : BaseUnspent base)
    {ops : List (Nat × Op)} (hops : PermittedRun (start n base) ops) : ∃ v, (start n base).run ops = .ok v ∧
      (∀ o, (v.getCoin o).1 = runMap (fun o => base.coins.lookup o) ops o) ∧
      (∀ layer c o it, v.caches[layer]? = some c → c.find o = some it → it.fresh = true →
        (v.below (layer + 1)).peek o = none) ∧
      ∃ w, v.run (flushes n) = .ok w ∧ ∀ o, w.base.coins.lookup o = runMap (fun o => base.coins.lookup o) ops o := by
  obtain ⟨v, hrun, hvalid, hlen, hpeek⟩ := run_spec (start_valid n hbase) hops
  have hn : v.caches.length = n := hlen.trans (by simp [start])
  have hmap : ∀ o, v.peek o = runMap (fun o => base.coins.lookup o) ops o := by
    intro o
    rw [hpeek, funext (start_peek n hbase)]
  obtain ⟨w, hflush, hwvalid, hwlen, hwpeek, hempty⟩ := flushes_spec hvalid hn.ge
  refine ⟨v, hrun, fun o => ?_, fun layer c o it hc hit hf => hvalid.fresh hc hit hf, w, hflush, fun o => ?_⟩
  · rw [(getCoin_spec hvalid o).1]
    exact hmap o
  · rw [← hmap, ← hwpeek, ← peek_of_base hwvalid.base]
    have hall : ∀ c ∈ w.caches, c.cacheCoins = ∅ := by
      intro c hc
      exact hempty c (by rw [← hn, ← hwlen, take_length]; exact hc)
    exact (seen_of_empty hall).symm

def someOutpoint : COutPoint := ⟨1, 0⟩
def someCoin : Coin := ⟨⟨5, [0x51]⟩, false, 1⟩
def emptyBase : CoinsBase := ⟨0, ∅⟩
def fundedBase : CoinsBase := ⟨0, AList.insert someOutpoint someCoin ∅⟩

/-- A coin of the base is spent on top, down to the base. -/
theorem layers_refine_map_spent : ∃ v,
    (start 2 fundedBase).run [(0, .spendCoin someOutpoint), (0, .flush .written)] = .ok v ∧
      (v.getCoin someOutpoint).1 = none ∧
      ∃ w, v.run (flushes 2) = .ok w ∧ w.base.coins.lookup someOutpoint = none := by
  have hbase : BaseUnspent fundedBase := by
    intro o coin h
    by_cases ho : o = someOutpoint
    · rw [ho, fundedBase, lookup_insert] at h
      cases h
      rfl
    · rw [fundedBase, lookup_insert_ne ho, lookup_empty] at h
      cases h
  have hspend : Permitted (start 2 fundedBase) 0 (.spendCoin someOutpoint) :=
    { layer_lt := by decide
      above := by simp
      addCoin := by
        rintro o coin n overwrite h
        cases h
      written := by
        rintro reply (h | h) <;> cases h
      not_emplace := by
        rintro o coin n h
        cases h }
  have hops : PermittedRun (start 2 fundedBase) [(0, .spendCoin someOutpoint), (0, .flush .written)] :=
    ⟨hspend, permitted_flush (by decide), trivial⟩
  obtain ⟨v, hrun, hget, -, w, hflush, hlookup⟩ := layers_refine_map 2 hbase hops
  refine ⟨v, hrun, ?_, w, hflush, ?_⟩
  · rw [hget]
    decide
  · rw [hlookup]
    decide

/-- A spend below is not seen once the upper cache has the coin. -/
theorem spend_below_unseen : ∃ v, (start 2 ⟨0, AList.singleton someOutpoint someCoin⟩).run
      [(0, .getCoin someOutpoint), (1, .spendCoin someOutpoint)] = .ok v ∧ (v.getCoin someOutpoint).1 = some someCoin ∧
    runMap (fun o => (AList.singleton someOutpoint someCoin : AssocMap COutPoint Coin).lookup o)
      [(0, .getCoin someOutpoint), (1, .spendCoin someOutpoint)] someOutpoint = none := by
  refine ⟨_, rfl, ?_, ?_⟩
  · decide
  · decide

end FullNode.CoinsView
