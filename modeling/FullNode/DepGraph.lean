import FullNode.Lib.Covering
import FullNode.MiniMiner

/-!
# Dependency graphs of clusters

A graph holds the closures only. Positions are used again, so what depends on what is told by the transactions that
were ever added.
-/

namespace FullNode.ClusterLinearize

open MiniMiner (FeeFrac)
open Ancestry Covering List Finset
open Relation

/-! ## The code -/

/-- A transaction, and its ancestors and descendants with itself. -/
structure Entry (N : Nat) where
  feerate : FeeFrac
  ancestors : Finset (Fin N)
  descendants : Finset (Fin N)

/-- `N` is the size of the bit sets. -/
structure DepGraph (N : Nat) where
  entries : List (Entry N) := []
  m_used : Finset (Fin N) := ∅

variable {N : Nat}

def elements (s : Finset (Fin N)) : List (Fin N) := (List.finRange N).filter (· ∈ s)

namespace DepGraph

def entry (g : DepGraph N) (i : Fin N) : Entry N := g.entries.getD i ⟨⟨0, 0⟩, ∅, ∅⟩

def ancestors (g : DepGraph N) (i : Fin N) : Finset (Fin N) := (g.entry i).ancestors

def descendants (g : DepGraph N) (i : Fin N) : Finset (Fin N) := (g.entry i).descendants

def modifyEntry (g : DepGraph N) (i : Fin N) (f : Entry N → Entry N) : DepGraph N :=
  { g with entries := g.entries.modify i f }

/-- Nothing when all positions are used. -/
def addTransaction (g : DepGraph N) (feefrac : FeeFrac) : Option (Fin N × DepGraph N) := do
  let new_idx ← (elements (Finset.univ \ g.m_used)).head?
  let entry : Entry N := ⟨feefrac, {new_idx}, {new_idx}⟩
  let entries := if new_idx = g.entries.length then g.entries ++ [entry] else g.entries.set new_idx entry
  return (new_idx, { entries, m_used := insert new_idx g.m_used })

/-- How many of the first `n` entries stay without trailing holes. -/
def trimmed (m_used : Finset (Fin N)) : Nat → Nat
  | 0 => 0
  | n + 1 => if ∃ i ∈ m_used, i.val = n then n + 1 else trimmed m_used n

def removeTransactions (g : DepGraph N) (del : Finset (Fin N)) : DepGraph N :=
  let m_used := g.m_used \ del
  let entries := g.entries.take (trimmed m_used g.entries.length)
  { entries := entries.map fun entry => { entry with
      ancestors := entry.ancestors ∩ m_used
      descendants := entry.descendants ∩ m_used }
    m_used }

/-- The ancestors of the parents that the child does not have yet. -/
def parAnc (g : DepGraph N) (parents : Finset (Fin N)) (child : Fin N) : Finset (Fin N) :=
  (elements (parents \ g.ancestors child)).foldl (fun par_anc par => par_anc ∪ g.ancestors par) ∅ \ g.ancestors child

def addDescendants (child : Fin N) (g : DepGraph N) (anc_of_par : Fin N) : DepGraph N :=
  g.modifyEntry anc_of_par fun e => { e with descendants := e.descendants ∪ g.descendants child }

def addAncestors (par_anc : Finset (Fin N)) (g : DepGraph N) (dec_of_chl : Fin N) : DepGraph N :=
  g.modifyEntry dec_of_chl fun e => { e with ancestors := e.ancestors ∪ par_anc }

def addDependencies (g : DepGraph N) (parents : Finset (Fin N)) (child : Fin N) : DepGraph N :=
  let par_anc := g.parAnc parents child
  if par_anc = ∅ then g
  else
    let g := (elements par_anc).foldl (addDescendants child) g
    (elements (g.descendants child)).foldl (addAncestors par_anc) g

/-- `GetReducedParents` and `GetReducedChildren`. -/
def reduced (closure : Fin N → Finset (Fin N)) (i : Fin N) : Finset (Fin N) :=
  sweep closure ((closure i).erase i) (elements ((closure i).erase i))

def getReducedParents (g : DepGraph N) (i : Fin N) : Finset (Fin N) := reduced g.ancestors i

def getReducedChildren (g : DepGraph N) (i : Fin N) : Finset (Fin N) := reduced g.descendants i

end DepGraph

/-! ## What was ever added -/

/-- Transactions are numbered as added. `Depends` has the child first. -/
structure History (N : Nat) where
  next : Nat
  idOf : Fin N → Nat
  Depends : Nat → Nat → Prop

def History.add (H : History N) (i : Fin N) : History N :=
  { H with
    next := H.next + 1
    idOf := Function.update H.idOf i H.next }

/-- The transaction at `j` is an ancestor of the one at `i`. -/
def History.Reaches (H : History N) (i j : Fin N) : Prop := ReflTransGen H.Depends (H.idOf i) (H.idOf j)

def History.depend (H : History N) (parents : Finset (Fin N)) (child : Fin N) : History N :=
  { H with Depends := withNode H.Depends (H.idOf child) fun p => ∃ q ∈ parents, H.idOf q = p }

/-- Calls that keep to what the code assumes. -/
inductive Run : DepGraph N → History N → Prop where
  | start : Run {} ⟨0, fun _ => 0, fun _ _ => False⟩
  | addTransaction {g H i g'} (h : Run g H) (feefrac : FeeFrac) (hadd : g.addTransaction feefrac = some (i, g')) :
      Run g' (H.add i)
  | removeTransactions {g H} (h : Run g H) (del : Finset (Fin N)) : Run (g.removeTransactions del) H
  | addDependencies {g H} (h : Run g H) (parents : Finset (Fin N)) (child : Fin N) (hparents : parents ⊆ g.m_used)
      (hchild : child ∈ g.m_used) : Run (g.addDependencies parents child) (H.depend parents child)

/-- The closures hold the positions in use that a relation leads to. -/
def Exact (used : Finset (Fin N)) (closure : Fin N → Finset (Fin N)) (R : Fin N → Fin N → Prop) : Prop :=
  ∀ i ∈ used, ∀ j, j ∈ closure i ↔ j ∈ used ∧ R i j

structure Closed (g : DepGraph N) (H : History N) : Prop where
  ancestors : Exact g.m_used g.ancestors H.Reaches
  descendants : Exact g.m_used g.descendants (flip H.Reaches)

/-- The least set of other positions that generates a closure. -/
structure Least (used : Finset (Fin N)) (closure : Fin N → Finset (Fin N)) (i : Fin N) (R : Finset (Fin N)) : Prop where
  others : R ⊆ used ∧ i ∉ R
  generates : closure i = insert i (R.biUnion closure)
  least : ∀ S ⊆ used, i ∉ S → closure i = insert i (S.biUnion closure) → R ⊆ S

namespace DepGraph

variable {g g' : DepGraph N} {H : History N} {i j child : Fin N} {parents s : Finset (Fin N)} {l : List (Fin N)}
  {f : Entry N → Entry N} {feefrac : FeeFrac} {a : Fin N}

/-! ## Single steps -/

theorem mem_elements : i ∈ elements s ↔ i ∈ s := by
  unfold elements
  simp

theorem modifyEntry_length : (g.modifyEntry i f).entries.length = g.entries.length := length_modify ..

theorem entry_modifyEntry (hi : i.val < g.entries.length) (j : Fin N) :
    (g.modifyEntry i f).entry j = if j = i then f (g.entry j) else g.entry j := by
  unfold entry modifyEntry
  rw [getD_eq_getElem?_getD, getD_eq_getElem?_getD, getElem?_modify]
  split
  · next heq =>
    obtain rfl := Fin.ext heq
    rw [if_pos rfl, getElem?_eq_getElem hi]
    rfl
  · next hne =>
    rw [if_neg fun heq => hne (congrArg Fin.val heq.symm)]
    cases g.entries[j.val]? <;> rfl

theorem foldl_modifyEntry (hf : ∀ e, f (f e) = f e) (hl : ∀ a ∈ l, a.val < g.entries.length)
    (hg' : l.foldl (fun g a => g.modifyEntry a f) g = g') :
    g'.m_used = g.m_used ∧ g'.entries.length = g.entries.length ∧
      ∀ j, g'.entry j = if j ∈ l then f (g.entry j) else g.entry j := by
  induction l generalizing g with
  | nil =>
    subst hg'
    exact ⟨rfl, rfl, fun j => (if_neg not_mem_nil).symm⟩
  | cons a l ih =>
    have hlength : (g.modifyEntry a f).entries.length = g.entries.length := modifyEntry_length
    obtain ⟨hused, hlength', hentries⟩ := ih (fun b hb => hlength ▸ hl b (mem_cons_of_mem a hb)) hg'
    refine ⟨hused, hlength'.trans hlength, fun j => ?_⟩
    rw [hentries, entry_modifyEntry (hl a mem_cons_self)]
    by_cases hja : j = a
    · simp [hja, hf]
    · simp [hja]

/-- The child's own descendants stay, so each step adds the same. -/
theorem foldl_addDescendants (hl : ∀ a ∈ l, a.val < g.entries.length ∧ a ≠ child) (hs : g.descendants child = s) :
    l.foldl (addDescendants child) g =
      l.foldl (fun g a => g.modifyEntry a fun e => { e with descendants := e.descendants ∪ s }) g := by
  induction l generalizing g with
  | nil => rfl
  | cons a l ih =>
    obtain ⟨ha, hne⟩ := hl a mem_cons_self
    rw [foldl_cons, foldl_cons, addDescendants, hs]
    refine ih (fun b hb => modifyEntry_length.symm ▸ hl b (mem_cons_of_mem a hb)) ?_
    rw [descendants, entry_modifyEntry ha, if_neg hne.symm]
    exact hs

theorem mem_foldl_ancestors {acc : Finset (Fin N)} :
    i ∈ l.foldl (fun par_anc par => par_anc ∪ g.ancestors par) acc ↔ i ∈ acc ∨ ∃ p ∈ l, i ∈ g.ancestors p := by
  induction l generalizing acc with
  | nil => simp
  | cons a l ih => rw [foldl_cons, ih, mem_union, exists_mem_cons_iff, or_assoc]

theorem mem_parAnc : i ∈ g.parAnc parents child ↔ (∃ p ∈ parents, p ∉ g.ancestors child ∧ i ∈ g.ancestors p) ∧
    i ∉ g.ancestors child := by
  unfold parAnc
  simp only [mem_sdiff, mem_foldl_ancestors, mem_elements, notMem_empty, false_or, and_assoc]

/-! ## What a call does -/

structure Inv (g : DepGraph N) (H : History N) : Prop extends Closed g H where
  range : ∀ i ∈ g.m_used, i.val < g.entries.length
  known : ∀ i ∈ g.m_used, H.idOf i < H.next
  distinct : ∀ i ∈ g.m_used, ∀ j ∈ g.m_used, H.idOf i = H.idOf j → i = j
  edges : ∀ a b, H.Depends a b → a < H.next ∧ b < H.next

theorem mem_parAnc_iff (h : Closed g H) (hparents : parents ⊆ g.m_used) (hchild : child ∈ g.m_used) :
    i ∈ g.parAnc parents child ↔ i ∈ g.m_used ∧ (∃ q ∈ parents, H.Reaches q i) ∧ ¬H.Reaches child i := by
  rw [mem_parAnc]
  constructor
  · rintro ⟨⟨q, hq, -, hi⟩, hnot⟩
    obtain ⟨hused, hreach⟩ := (h.ancestors q (hparents hq) i).mp hi
    exact ⟨hused, ⟨q, hq, hreach⟩, fun hbad => hnot ((h.ancestors child hchild i).mpr ⟨hused, hbad⟩)⟩
  · rintro ⟨hused, ⟨q, hq, hreach⟩, hnot⟩
    refine ⟨⟨q, hq, fun hbad => ?_, (h.ancestors q (hparents hq) i).mpr ⟨hused, hreach⟩⟩, fun hbad => ?_⟩
    · exact hnot (((h.ancestors child hchild q).mp hbad).2.trans hreach)
    · exact hnot ((h.ancestors child hchild i).mp hbad).2

theorem addDependencies_spec (h : Inv g H) (hparents : parents ⊆ g.m_used) (hchild : child ∈ g.m_used) :
    (g.addDependencies parents child).m_used = g.m_used ∧
      (g.addDependencies parents child).entries.length = g.entries.length ∧
      ∀ j, (g.addDependencies parents child).ancestors j =
          (if j ∈ g.descendants child then g.ancestors j ∪ g.parAnc parents child else g.ancestors j) ∧
        (g.addDependencies parents child).descendants j =
          if j ∈ g.parAnc parents child then g.descendants j ∪ g.descendants child else g.descendants j := by
  have hself : child ∉ g.parAnc parents child :=
      fun hmem => ((mem_parAnc_iff h.toClosed hparents hchild).mp hmem).2.2 .refl
  have hnew : ∀ a ∈ elements (g.parAnc parents child), a.val < g.entries.length ∧ a ≠ child := by
    intro a ha
    refine ⟨h.range a ((mem_parAnc_iff h.toClosed hparents hchild).mp (mem_elements.mp ha)).1, ?_⟩
    rintro rfl
    exact hself (mem_elements.mp ha)
  unfold addDependencies
  dsimp only
  split
  · next hnone => simp [hnone]
  · rw [foldl_addDescendants hnew rfl]
    generalize hg1 : (elements (g.parAnc parents child)).foldl _ g = g1
    obtain ⟨hused1, hlength1, hentries1⟩ := foldl_modifyEntry (by simp) (fun a ha => (hnew a ha).1) hg1
    have hkept : g1.descendants child = g.descendants child :=
      congrArg Entry.descendants ((hentries1 child).trans (if_neg (mt mem_elements.mp hself)))
    have hbelow : ∀ a ∈ elements (g1.descendants child), a.val < g1.entries.length := fun a ha => by
      rw [mem_elements, hkept] at ha
      exact hlength1 ▸ h.range a ((h.descendants child hchild a).mp ha).1
    generalize hg2 : (elements (g1.descendants child)).foldl (addAncestors _) g1 = g2
    obtain ⟨hused2, hlength2, hentries2⟩ := foldl_modifyEntry (by simp) hbelow hg2
    refine ⟨hused2.trans hused1, hlength2.trans hlength1, fun j => ?_⟩
    have hgrown := hentries1 j
    simp only [ancestors, descendants, hentries2, mem_elements] at hkept ⊢
    simp only [hkept, apply_ite Entry.ancestors, apply_ite Entry.descendants, ite_self, hgrown, mem_elements]
    exact ⟨rfl, rfl⟩

theorem depend_reaches : (H.depend parents child).Reaches i j ↔ H.Reaches i j ∨ H.Reaches i child ∧ ∃ q ∈ parents,
    H.Reaches q j := by
  unfold History.Reaches History.depend
  rw [reach_withNode]
  simp only [exists_exists_and_eq_and]

theorem Inv.addDependencies (h : Inv g H) (hparents : parents ⊆ g.m_used) (hchild : child ∈ g.m_used) :
    Inv (g.addDependencies parents child) (H.depend parents child) := by
  obtain ⟨hused, hlength, hentries⟩ := addDependencies_spec h hparents hchild
  have hnew := fun i => mem_parAnc_iff (i := i) h.toClosed hparents hchild
  refine ⟨⟨?_, ?_⟩, ?_, ?_, ?_, ?_⟩
  · intro i hi j
    rw [hused] at hi ⊢
    rw [(hentries i).1, depend_reaches]
    have hbelow : i ∈ g.descendants child ↔ H.Reaches i child := (h.descendants child hchild i).trans (and_iff_right hi)
    split
    · next hmem =>
      rw [mem_union, h.ancestors i hi, hnew]
      have htrans : H.Reaches child j → H.Reaches i j := (hbelow.mp hmem).trans
      have hreach := hbelow.mp hmem
      tauto
    · next hmem =>
      rw [h.ancestors i hi]
      have hreach := mt hbelow.mpr hmem
      tauto
  · intro i hi j
    rw [hused] at hi ⊢
    have hmemNew := hnew i
    unfold flip
    rw [(hentries i).2, depend_reaches]
    split
    · next hmem =>
      obtain ⟨-, habove, -⟩ := hmemNew.mp hmem
      rw [mem_union, h.descendants i hi, h.descendants child hchild]
      unfold flip
      tauto
    · next hmem =>
      rw [h.descendants i hi]
      unfold flip
      have hreach : (∃ q ∈ parents, H.Reaches q i) → H.Reaches child i := fun habove =>
        by_contra fun hnot => hmem (hmemNew.mpr ⟨hi, habove, hnot⟩)
      refine and_congr_right fun _ => ⟨.inl, ?_⟩
      rintro (hold | ⟨hj, habove⟩)
      · exact hold
      · exact hj.trans (hreach habove)
  · rw [hused, hlength]
    exact h.range
  · rw [hused]
    exact h.known
  · rw [hused]
    exact h.distinct
  · rintro a b (hab | ⟨rfl, q, hq, rfl⟩)
    · exact h.edges a b hab
    · exact ⟨h.known child hchild, h.known q (hparents hq)⟩

theorem addTransaction_spec (h : Inv g H) (hadd : g.addTransaction feefrac = some (i, g')) :
    i ∉ g.m_used ∧ g'.m_used = insert i g.m_used ∧ (∀ j ∈ g'.m_used, j.val < g'.entries.length) ∧
      g'.ancestors i = {i} ∧ g'.descendants i = {i} ∧
        ∀ j ∈ g.m_used, g'.ancestors j = g.ancestors j ∧ g'.descendants j = g.descendants j := by
  obtain ⟨_, hfirst, hadd⟩ := Option.bind_eq_some_iff.mp hadd
  cases hadd
  unfold elements at hfirst
  rw [head?_filter, find?_eq_some_iff_append] at hfirst
  obtain ⟨hfree, before, after, hsplit, hbefore⟩ := hfirst
  have hnot : i ∉ g.m_used := by simpa using hfree
  -- everything before the first free position is in use
  have hle : i.val ≤ g.entries.length := by
    by_contra hlt
    have hmem : (⟨g.entries.length, by omega⟩ : Fin N) ∈ before ++ i :: after := hsplit ▸ mem_finRange _
    have hsorted := pairwise_lt_finRange N
    rw [hsplit, pairwise_append, List.pairwise_cons] at hsorted
    rcases mem_append.mp hmem with hmem | hmem
    · have hused := hbefore _ hmem
      simp only [mem_sdiff, mem_univ, true_and, Bool.not_eq_true', decide_eq_false_iff_not, not_not] at hused
      exact absurd (h.range _ hused) (lt_irrefl _)
    · rcases List.mem_cons.mp hmem with heq | hmem
      · exact hlt (congrArg Fin.val heq).ge
      · exact hlt (Fin.lt_def.mp (hsorted.2.1.1 _ hmem)).le
  generalize hentries : (if i.val = g.entries.length then g.entries ++ [⟨feefrac, {i}, {i}⟩] else
    g.entries.set i ⟨feefrac, {i}, {i}⟩ : List (Entry N)) = entries
  have hlength : g.entries.length ≤ entries.length ∧ i.val < entries.length := by
    rw [← hentries]
    split <;> simp <;> omega
  have hentry : ∀ j : Fin N, entries[j.val]? = if j = i then some ⟨feefrac, {i}, {i}⟩ else g.entries[j.val]? := by
    intro j
    rw [← hentries]
    by_cases hj : j = i
    · rw [if_pos hj, hj]
      split
      · next heq => simp [heq]
      · rw [getElem?_set_self (by omega)]
    · have hne : i.val ≠ j.val := fun heq => hj (Fin.ext heq).symm
      rw [if_neg hj]
      split
      · rw [getElem?_append]
        split
        · rfl
        · rw [getElem?_eq_none (by simp; omega), getElem?_eq_none (by omega)]
      · rw [getElem?_set_ne hne]
  have hnew : ∀ j, (⟨entries, insert i g.m_used⟩ : DepGraph N).entry j =
      if j = i then ⟨feefrac, {i}, {i}⟩ else g.entry j := by
    intro j
    unfold entry
    rw [getD_eq_getElem?_getD, hentry]
    split <;> simp
  refine ⟨hnot, rfl, ?_, ?_, ?_, ?_⟩
  · intro j hj
    rcases mem_insert.mp hj with rfl | hj
    · exact hlength.2
    · exact (h.range j hj).trans_le hlength.1
  · exact congrArg Entry.ancestors ((hnew i).trans (if_pos rfl))
  · exact congrArg Entry.descendants ((hnew i).trans (if_pos rfl))
  · intro j hj
    have hne : j ≠ i := fun heq => hnot (heq ▸ hj)
    exact ⟨congrArg Entry.ancestors ((hnew j).trans (if_neg hne)),
      congrArg Entry.descendants ((hnew j).trans (if_neg hne))⟩

theorem trimmed_spec (hi : i ∈ s) {n : Nat} (hn : i.val < n) : i.val < trimmed s n := by
  induction n with
  | zero => omega
  | succ n ih =>
    unfold trimmed
    split
    · exact hn
    · next hnone => exact ih (Nat.lt_of_le_of_ne (Nat.le_of_lt_succ hn) fun heq => hnone ⟨i, hi, heq⟩)

theorem removeTransactions_spec {del : Finset (Fin N)} (h : Inv g H) (hi : i ∈ g.m_used \ del) :
    i.val < (g.removeTransactions del).entries.length ∧
      (g.removeTransactions del).ancestors i = g.ancestors i ∩ (g.m_used \ del) ∧
      (g.removeTransactions del).descendants i = g.descendants i ∩ (g.m_used \ del) := by
  have hlt := h.range i (mem_sdiff.mp hi).1
  have htrimmed := trimmed_spec hi hlt
  unfold ancestors descendants entry removeTransactions
  dsimp only
  rw [getD_eq_getElem?_getD, getD_eq_getElem?_getD, getElem?_map, getElem?_take_of_lt htrimmed,
    getElem?_eq_getElem hlt, length_map, length_take]
  exact ⟨lt_min htrimmed hlt, rfl, rfl⟩

variable {R : Fin N → Fin N → Prop} {closure : Fin N → Finset (Fin N)} {used : Finset (Fin N)}
  {closure' : Fin N → Finset (Fin N)}

theorem Exact.insert {R' : Fin N → Fin N → Prop}
    (h : Exact used closure R) (hnew : closure' i = {i}) (hold : ∀ j ∈ used, closure' j = closure j) (hself : R' i i)
    (hkept : ∀ j ∈ used, ∀ k ∈ used, R' j k ↔ R j k) (hapart : ∀ j ∈ used, ¬R' j i ∧ ¬R' i j) :
    Exact (insert i used) closure' R' := by
  intro j hj k
  rw [mem_insert] at hj ⊢
  rcases hj with rfl | hj
  · rw [hnew, Finset.mem_singleton]
    constructor
    · rintro rfl
      exact ⟨.inl rfl, hself⟩
    · rintro ⟨rfl | hk, hreach⟩
      · rfl
      · exact absurd hreach (hapart k hk).2
  · rw [hold j hj, h j hj]
    constructor
    · rintro ⟨hk, hreach⟩
      exact ⟨.inr hk, (hkept j hj k hk).mpr hreach⟩
    · rintro ⟨rfl | hk, hreach⟩
      · exact absurd hreach (hapart j hj).1
      · exact ⟨hk, (hkept j hj k hk).mp hreach⟩

theorem Exact.mask {used' : Finset (Fin N)}
    (h : Exact used closure R) (hsub : ∀ i ∈ used', i ∈ used) (hmask : ∀ i ∈ used', closure' i = closure i ∩ used') :
    Exact used' closure' R := by
  intro i hi j
  rw [hmask i hi, mem_inter, h i (hsub i hi)]
  exact ⟨fun hj => ⟨hj.2, hj.1.2⟩, fun hj => ⟨⟨hsub j hj.1, hj.2⟩, hj.1⟩⟩

theorem add_reaches {b : Nat} (h : Inv g H) (hb : b < H.next) :
    ¬ReflTransGen H.Depends b H.next ∧ ¬ReflTransGen H.Depends H.next b := by
  constructor
  · intro hreach
    rcases ReflTransGen.cases_tail hreach with heq | ⟨c, -, hc⟩
    · omega
    · exact absurd (h.edges c _ hc).2 (lt_irrefl _)
  · intro hreach
    rcases ReflTransGen.cases_head hreach with heq | ⟨c, hc, -⟩
    · omega
    · exact absurd (h.edges _ c hc).1 (lt_irrefl _)

theorem Inv.addTransaction (h : Inv g H) (hadd : g.addTransaction feefrac = some (i, g')) : Inv g' (H.add i) := by
  obtain ⟨hnot, hused, hrange, hancestors, hdescendants, hold⟩ := addTransaction_spec h hadd
  have hidOf : ∀ j ∈ g.m_used, (H.add i).idOf j = H.idOf j :=
      fun j hj => Function.update_of_ne (ne_of_mem_of_not_mem hj hnot) _ _
  have hidNew : (H.add i).idOf i = H.next := Function.update_self ..
  have hkept : ∀ j ∈ g.m_used, ∀ k ∈ g.m_used, (H.add i).Reaches j k ↔ H.Reaches j k := by
    intro j hj k hk
    unfold History.Reaches
    rw [hidOf j hj, hidOf k hk]
    rfl
  have hapart : ∀ j ∈ g.m_used, ¬(H.add i).Reaches j i ∧ ¬(H.add i).Reaches i j := by
    intro j hj
    unfold History.Reaches
    rw [hidOf j hj, hidNew]
    exact add_reaches h (h.known j hj)
  refine ⟨⟨?_, ?_⟩, hrange, ?_, ?_, ?_⟩
  · exact hused ▸ Exact.insert h.ancestors hancestors (fun j hj => (hold j hj).1) .refl hkept hapart
  · exact hused ▸ Exact.insert h.descendants hdescendants (fun j hj => (hold j hj).2) .refl
      (fun j hj k hk => hkept k hk j hj) fun j hj => (hapart j hj).symm
  · intro j hj
    rw [hused, mem_insert] at hj
    rcases hj with rfl | hj
    · exact hidNew ▸ Nat.lt_succ_self _
    · exact hidOf j hj ▸ Nat.lt_succ_of_lt (h.known j hj)
  · intro j hj k hk heq
    rw [hused, mem_insert] at hj hk
    rcases hj with rfl | hj <;> rcases hk with rfl | hk
    · rfl
    · rw [hidNew, hidOf k hk] at heq
      exact absurd heq (h.known k hk).ne'
    · rw [hidNew, hidOf j hj] at heq
      exact absurd heq (h.known j hj).ne
    · rw [hidOf j hj, hidOf k hk] at heq
      exact h.distinct j hj k hk heq
  · intro a b hab
    exact ⟨Nat.lt_succ_of_lt (h.edges a b hab).1, Nat.lt_succ_of_lt (h.edges a b hab).2⟩

theorem Inv.removeTransactions (h : Inv g H) (del : Finset (Fin N)) : Inv (g.removeTransactions del) H := by
  have hold : ∀ i ∈ g.m_used \ del, i ∈ g.m_used := fun i hi => (mem_sdiff.mp hi).1
  refine ⟨⟨?_, ?_⟩, fun i hi => (removeTransactions_spec h hi).1, fun i hi => h.known i (hold i hi),
    fun i hi j hj => h.distinct i (hold i hi) j (hold j hj), h.edges⟩
  · exact Exact.mask h.ancestors hold fun i hi => (removeTransactions_spec h hi).2.1
  · exact Exact.mask h.descendants hold fun i hi => (removeTransactions_spec h hi).2.2

theorem Run.inv (h : Run g H) : Inv g H := by
  induction h with
  | start => exact ⟨⟨nofun, nofun⟩, nofun, nofun, nofun, fun _ _ hbad => hbad.elim⟩
  | addTransaction _ _ hadd ih => exact ih.addTransaction hadd
  | removeTransactions _ del ih => exact ih.removeTransactions del
  | addDependencies _ _ _ hparents hchild ih => exact ih.addDependencies hparents hchild

/-! ## Reduced sets -/

theorem Exact.ordered (h : Exact used closure R)
    (hrefl : ∀ i, R i i) (htrans : ∀ {i j k}, R i j → R j k → R i k)
    (hanti : ∀ i ∈ used, ∀ j ∈ used, R i j → R j i → i = j) : Ordered closure used := by
  refine ⟨fun p hp => (h p hp p).mpr ⟨hp, hrefl p⟩, fun p hp q hq r hr => ?_, fun p hp q hq hpq hqp => ?_⟩
  · obtain ⟨hq', hpq⟩ := (h p hp q).mp hq
    obtain ⟨hr', hqr⟩ := (h q hq' r).mp hr
    exact (h p hp r).mpr ⟨hr', htrans hpq hqr⟩
  · exact hanti p hp q hq ((h p hp q).mp hqp).2 ((h q hq p).mp hpq).2

variable (h : Inv g H) (hacyclic : ∀ a, ¬TransGen H.Depends a a)
include h hacyclic

theorem reaches_antisymm (hi : i ∈ g.m_used) (hj : j ∈ g.m_used)
    (hij : H.Reaches i j) (hji : H.Reaches j i) : i = j := by
  apply h.distinct i hi j hj
  by_contra hne
  rcases reflTransGen_iff_eq_or_transGen.mp hij with heq | hpath
  · exact hne heq.symm
  · exact hacyclic _ (hpath.trans_left hji)

theorem ancestors_ordered : Ordered g.ancestors g.m_used :=
  Exact.ordered h.ancestors (fun _ => .refl) .trans fun _ hi _ hj hij hji => reaches_antisymm h hacyclic hi hj hij hji

theorem descendants_ordered : Ordered g.descendants g.m_used :=
  Exact.ordered h.descendants (fun _ => .refl) (fun hij hjk => ReflTransGen.trans hjk hij)
    fun _ hi _ hj hij hji => reaches_antisymm h hacyclic hi hj hji hij

omit h hacyclic

theorem reduced_least (hordered : Ordered closure used)
    (hused : ∀ i ∈ used, closure i ⊆ used) (hi : i ∈ used) : Least used closure i (reduced closure i) := by
  have hin : (closure i).erase i ⊆ used := (erase_subset _ _).trans (hused i hi)
  have hordered' : Ordered closure ((closure i).erase i) :=
    ⟨fun p hp => hordered.refl p (hin hp), fun p hp => hordered.trans p (hin hp), fun p hp q hq =>
      hordered.antisymm p (hin hp) q (hin hq)⟩
  have htop : ∀ p, p ∈ reduced closure i ↔ Top closure ((closure i).erase i) p := fun p =>
    mem_sweep_all hordered' fun q hq => mem_elements.mpr hq
  refine ⟨⟨fun p hp => hin ((htop p).mp hp).1, fun hbad => ?_⟩, ?_, ?_⟩
  · exact (mem_erase.mp ((htop i).mp hbad).1).1 rfl
  · ext j
    rw [mem_insert]
    constructor
    · intro hj
      by_cases hji : j = i
      · exact .inl hji
      · exact .inr (top_generates hordered' (mem_erase.mpr ⟨hji, hj⟩) htop)
    · rintro (rfl | hj)
      · exact hordered.refl _ hi
      · obtain ⟨p, hp, hjp⟩ := mem_biUnion.mp hj
        exact hordered.trans i hi p (mem_erase.mp ((htop p).mp hp).1).2 hjp
  · intro S hS hnot hgen p hp
    have hsub : S ⊆ (closure i).erase i := by
      intro q hq
      refine mem_erase.mpr ⟨fun heq => hnot (heq ▸ hq), ?_⟩
      rw [hgen]
      exact mem_insert_of_mem (mem_biUnion.mpr ⟨q, hq, hordered.refl q (hS hq)⟩)
    obtain ⟨hne, hmem⟩ := mem_erase.mp ((htop p).mp hp).1
    have hpgen : p ∈ insert i (S.biUnion closure) := hgen ▸ hmem
    exact top_mem ((htop p).mp hp) hsub ((mem_insert.mp hpgen).resolve_left hne)

/-- After every run the closures are exact, the reduced sets least. -/
theorem closures_exact (h : Run g H) :
    Closed g H ∧ (∀ i ∈ g.m_used, ∀ j ∈ g.m_used, j ∈ g.ancestors i ↔ i ∈ g.descendants j) ∧
    ((∀ a, ¬TransGen H.Depends a a) → ∀ i ∈ g.m_used, Least g.m_used g.ancestors i (g.getReducedParents i) ∧
      Least g.m_used g.descendants i (g.getReducedChildren i)) := by
  have hinv := Run.inv h
  refine ⟨hinv.toClosed, fun i hi j hj => ?_, fun hacyclic i hi => ⟨?_, ?_⟩⟩
  · rw [hinv.ancestors i hi, hinv.descendants j hj, and_iff_right hi, and_iff_right hj]
    rfl
  · exact reduced_least (ancestors_ordered hinv hacyclic) (fun i hi j hj => ((hinv.ancestors i hi j).mp hj).1) hi
  · exact reduced_least (descendants_ordered hinv hacyclic) (fun i hi j hj => ((hinv.descendants i hi j).mp hj).1) hi

def apart : DepGraph 2 := ⟨[⟨⟨5, 1⟩, {0}, {0}⟩, ⟨⟨3, 1⟩, {1}, {1}⟩], {1, 0}⟩

def pair : DepGraph 2 := addDependencies apart {0} 1

def pairHistory : History 2 := ((History.add ⟨0, fun _ => 0, fun _ _ => False⟩ 0).add 1).depend {0} 1

theorem pair_acyclic (a : Nat) : ¬TransGen pairHistory.Depends a a := by
  have hless : ∀ {a b}, pairHistory.Depends a b → b < a := by
    rintro a b (hbad | ⟨rfl, _, hq, rfl⟩)
    · exact hbad.elim
    · obtain rfl := Finset.mem_singleton.mp hq
      decide
  intro hcycle
  have hlt : TransGen (fun a b => b < a) a a := TransGen.mono (fun _ _ => hless) _ _ hcycle
  rw [transGen_eq_self] at hlt
  exact lt_irrefl a hlt

theorem pair_closures : Closed pair pairHistory ∧ (∀ i ∈ pair.m_used, ∀ j ∈ pair.m_used, j ∈ pair.ancestors i ↔
    i ∈ pair.descendants j) ∧
    ∀ i ∈ pair.m_used, Least pair.m_used pair.ancestors i (pair.getReducedParents i) ∧
      Least pair.m_used pair.descendants i (pair.getReducedChildren i) := by
  have hrun : Run pair pairHistory :=
    .addDependencies (.addTransaction (.addTransaction .start ⟨5, 1⟩ rfl) ⟨3, 1⟩ rfl) {0} 1 (by decide) (by decide)
  obtain ⟨hclosed, hinverse, hleast⟩ := closures_exact hrun
  exact ⟨hclosed, hinverse, hleast pair_acyclic⟩

end DepGraph

end FullNode.ClusterLinearize
