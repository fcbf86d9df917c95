import FullNode.Lib.OrderedIndex
import Mathlib.Data.Finset.Card

/-!
# Walks with a worklist

A walk takes the first node of the stage, marks it done, and stages its successors that are not done. What a walk
returns is everything reachable from the stage, and within a finite set it ends.
-/

namespace FullNode.Worklist

open OrderedIndex List

variable {α κ σ ε : Type} [DecidableEq α] [LinearOrder κ]

/-- Stages the nodes of `ys` that are not done. -/
def stageNew (key : α → κ) (done ys stage : List α) : List α :=
  ys.foldl (fun stage y => if y ∈ done then stage else insertNew key y stage) stage

/-- `visit` sees the state, the node, the stage and what comes next. -/
def walk (key : α → κ) (next : α → List α) (visit : σ → α → List α → List α → Except ε σ) (endless : ε) :
    Nat → σ → List α → List α → Except ε (List α)
  | _, _, [], done => .ok done
  | 0, _, _ :: _, _ => .error endless
  | fuel + 1, s, x :: stage, done => do
    let s ← visit s x stage (insertNew key x done)
    walk key next visit endless fuel s (stageNew key (insertNew key x done) (next x) stage) (insertNew key x done)

def Leads (next : α → List α) : α → α → Prop := Relation.ReflTransGen fun x y => y ∈ next x

variable {key : α → κ} {next : α → List α} {visit : σ → α → List α → List α → Except ε σ} {endless : ε}
  {done stage ys out U : List α} {x y : α} {fuel : Nat} {s : σ}

/-! ## The stage -/

theorem mem_stageNew : y ∈ stageNew key done ys stage ↔ y ∈ stage ∨ y ∈ ys ∧ y ∉ done := by
  unfold stageNew
  induction ys generalizing stage with
  | nil => simp
  | cons z ys ih =>
    rw [foldl_cons, ih]
    split
    · next hz =>
      constructor
      · rintro (h | ⟨h, hd⟩)
        · exact .inl h
        · exact .inr ⟨mem_cons_of_mem _ h, hd⟩
      · rintro (h | ⟨h, hd⟩)
        · exact .inl h
        · rcases mem_cons.mp h with rfl | h
          · exact absurd hz hd
          · exact .inr ⟨h, hd⟩
    · next hz =>
      rw [mem_insertNew]
      constructor
      · rintro ((rfl | h) | ⟨h, hd⟩)
        · exact .inr ⟨mem_cons_self, hz⟩
        · exact .inl h
        · exact .inr ⟨mem_cons_of_mem _ h, hd⟩
      · rintro (h | ⟨h, hd⟩)
        · exact .inl (.inr h)
        · rcases mem_cons.mp h with rfl | h
          · exact .inl (.inl rfl)
          · exact .inr ⟨h, hd⟩

theorem stageNew_nodup (h : stage.Nodup) : (stageNew key done ys stage).Nodup := by
  unfold stageNew
  induction ys generalizing stage with
  | nil => exact h
  | cons z ys ih =>
    rw [foldl_cons]
    apply ih
    split
    · exact h
    · exact insertNew_nodup h

/-! ## What a walk returns -/

def Covered (next : α → List α) (done stage : List α) : Prop := ∀ x ∈ done, ∀ y ∈ next x, y ∈ done ∨ y ∈ stage

omit [DecidableEq α] in
theorem Covered.perm {stage' : List α} (h : Covered next done stage) (hperm : stage.Perm stage') :
    Covered next done stage' :=
  fun x hx y hy => (h x hx y hy).imp id hperm.mem_iff.mp

theorem Covered.step (h : Covered next done (x :: stage)) :
    Covered next (insertNew key x done) (stageNew key (insertNew key x done) (next x) stage) := by
  intro a ha b hb
  by_cases hdone : b ∈ insertNew key x done
  · exact .inl hdone
  · right
    rw [mem_stageNew]
    rcases mem_insertNew.mp ha with rfl | ha
    · exact .inr ⟨hb, hdone⟩
    · rcases h a ha b hb with hb | hb
      · exact absurd (mem_insertNew.mpr (.inr hb)) hdone
      · rcases mem_cons.mp hb with rfl | hb
        · exact absurd (mem_insertNew.mpr (.inl rfl)) hdone
        · exact .inl hb

omit [DecidableEq α] in
theorem Covered.leads (h : Covered next done stage) (hx : x ∈ done) (hy : Leads next x y) :
    y ∈ done ∨ ∃ z ∈ stage, Leads next z y := by
  induction hy using Relation.ReflTransGen.head_induction_on with
  | refl => exact .inl hx
  | head hstep hrest ih =>
    rcases h _ hx _ hstep with hz | hz
    · exact ih hz
    · exact .inr ⟨_, hz, hrest⟩

theorem walk_rule {k : List α → List α → Prop} (hstep : ∀ x stage done, k (x :: stage) done →
    k (stageNew key (insertNew key x done) (next x) stage) (insertNew key x done))
    (h : walk key next visit endless fuel s stage done = .ok out) (hkeeps : k stage done) : k [] out := by
  induction fuel generalizing s stage done with
  | zero =>
    cases stage with
    | nil =>
      cases h
      exact hkeeps
    | cons x stage => cases h
  | succ fuel ih =>
    cases stage with
    | nil =>
      cases h
      exact hkeeps
    | cons x stage =>
      unfold walk at h
      cases hvisit : visit s x stage (insertNew key x done) with
      | error e =>
        rw [hvisit] at h
        cases h
      | ok s' =>
        rw [hvisit] at h
        exact ih h (hstep x stage done hkeeps)

theorem Covered.reaches_step (h : Covered next done (x :: stage)) :
    (y ∈ insertNew key x done ∨ ∃ z ∈ stageNew key (insertNew key x done) (next x) stage, Leads next z y) ↔
      y ∈ done ∨ ∃ z ∈ x :: stage, Leads next z y := by
  constructor
  · rintro (hy | ⟨z, hz, hy⟩)
    · rcases mem_insertNew.mp hy with rfl | hy
      · exact .inr ⟨y, mem_cons_self, .refl⟩
      · exact .inl hy
    · rcases mem_stageNew.mp hz with hz | ⟨hz, -⟩
      · exact .inr ⟨z, mem_cons_of_mem _ hz, hy⟩
      · exact .inr ⟨x, mem_cons_self, .head hz hy⟩
  · rintro (hy | ⟨z, hz, hy⟩)
    · exact .inl (mem_insertNew.mpr (.inr hy))
    · rcases mem_cons.mp hz with rfl | hz
      · exact h.step.leads (mem_insertNew.mpr (.inl rfl)) hy
      · exact .inr ⟨z, mem_stageNew.mpr (.inl hz), hy⟩

theorem mem_walk (h : walk key next visit endless fuel s stage done = .ok out) (hcovered : Covered next done stage) :
    y ∈ out ↔ y ∈ done ∨ ∃ x ∈ stage, Leads next x y := by
  have hend := walk_rule (k := fun stage' done' => Covered next done' stage' ∧
    ((y ∈ done' ∨ ∃ x ∈ stage', Leads next x y) ↔ y ∈ done ∨ ∃ x ∈ stage, Leads next x y))
    (fun x stage' done' hkeeps => ⟨hkeeps.1.step, hkeeps.1.reaches_step.trans hkeeps.2⟩) h ⟨hcovered, Iff.rfl⟩
  simpa using hend.2

/-- What `visit` checks on the way does not change what is returned. -/
theorem walk_of_visits {τ ε' : Type} {visit' : τ → α → List α → List α → Except ε' τ} {endless' : ε'} {t : τ}
    (hvisit : ∀ s s' t x stage done, visit s x stage done = .ok s' → ∃ t', visit' t x stage done = .ok t')
    (h : walk key next visit endless fuel s stage done = .ok out) :
    walk key next visit' endless' fuel t stage done = .ok out := by
  induction fuel generalizing s t stage done with
  | zero =>
    cases stage with
    | nil =>
      cases h
      rfl
    | cons x stage => cases h
  | succ fuel ih =>
    cases stage with
    | nil =>
      cases h
      rfl
    | cons x stage =>
      unfold walk at h ⊢
      cases hx : visit s x stage (insertNew key x done) with
      | error e =>
        rw [hx] at h
        cases h
      | ok s' =>
        rw [hx] at h
        obtain ⟨t', ht⟩ := hvisit s s' t x stage _ hx
        rw [ht]
        exact ih h

section

variable (h : walk key next visit endless fuel s stage done = .ok out)
include h

theorem mem_walk_of_mem (hy : y ∈ stage ∨ y ∈ done) : y ∈ out := by
  have hend := walk_rule (k := fun stage done => y ∈ stage ∨ y ∈ done) (fun x stage done hmem => ?_) h hy
  · exact hend.resolve_left not_mem_nil
  · rcases hmem with hmem | hmem
    · rcases mem_cons.mp hmem with rfl | hmem
      · exact .inr (mem_insertNew.mpr (.inl rfl))
      · exact .inl (mem_stageNew.mpr (.inl hmem))
    · exact .inr (mem_insertNew.mpr (.inr hmem))

theorem walk_nodup (hdone : done.Nodup) : out.Nodup :=
  walk_rule (k := fun _ done => done.Nodup) (fun _ _ _ hdone => insertNew_nodup hdone) h hdone

end

/-! ## Walks end -/

theorem walk_error {e : ε} (h : walk key next visit endless fuel s stage done = .error e)
    (hU : ∀ x ∈ U, ∀ y ∈ next x, y ∈ U) (hstage : ∀ x ∈ stage, x ∈ U ∧ x ∉ done) (hdone : ∀ x ∈ done, x ∈ U)
    (hnodup : done.Nodup) (hstageNodup : stage.Nodup) (hfuel : U.toFinset.card ≤ done.length + fuel) :
    ∃ s, ∃ x ∈ U, ∃ stage done, visit s x stage done = .error e := by
  induction fuel generalizing s stage done with
  | zero =>
    cases stage with
    | nil => cases h
    | cons x stage =>
      -- the stage holds a node of `U` beyond what is done, and what is done is all of `U`
      obtain ⟨hx, hnot⟩ := hstage x mem_cons_self
      have hsub : insert x done.toFinset ⊆ U.toFinset := by
        intro y hy
        rcases Finset.mem_insert.mp hy with rfl | hy
        · exact mem_toFinset.mpr hx
        · exact mem_toFinset.mpr (hdone y (mem_toFinset.mp hy))
      have hcard := Finset.card_le_card hsub
      rw [Finset.card_insert_of_notMem (by simpa using hnot), toFinset_card_of_nodup hnodup] at hcard
      omega
  | succ fuel ih =>
    cases stage with
    | nil => cases h
    | cons x stage =>
      unfold walk at h
      cases hvisit : visit s x stage (insertNew key x done) with
      | error e' =>
        rw [hvisit] at h
        cases h
        exact ⟨_, x, (hstage x mem_cons_self).1, _, _, hvisit⟩
      | ok s' =>
        rw [hvisit] at h
        obtain ⟨hx, hnot⟩ := hstage x mem_cons_self
        have hlength : (insertNew key x done).length = done.length + 1 := insertNew_length hnot
        refine ih h ?_ ?_ (insertNew_nodup hnodup) (stageNew_nodup (nodup_cons.mp hstageNodup).2) (by omega)
        · intro y hy
          rcases mem_stageNew.mp hy with hstaged | ⟨hy, hout⟩
          · obtain ⟨hyU, hyDone⟩ := hstage y (mem_cons_of_mem _ hstaged)
            refine ⟨hyU, ?_⟩
            rw [mem_insertNew]
            rintro (rfl | hmem)
            · exact (nodup_cons.mp hstageNodup).1 hstaged
            · exact hyDone hmem
          · exact ⟨hU x hx y hy, hout⟩
        · intro y hy
          rcases mem_insertNew.mp hy with rfl | hy
          · exact hx
          · exact hdone y hy

/-! ## Any order -/

/-- A walk that takes any node of the stage next, and its end. -/
inductive Walks (key : α → κ) (next : α → List α) (visit : σ → α → List α → List α → Except ε σ) :
    σ → List α → List α → Except ε (List α) → Prop
  | done (s : σ) (done : List α) : Walks key next visit s [] done (.ok done)
  | stop {s : σ} {x : α} {stage rest done : List α} {e : ε} (hpick : stage.Perm (x :: rest))
      (hvisit : visit s x rest (insertNew key x done) = .error e) : Walks key next visit s stage done (.error e)
  | step {s s' : σ} {x : α} {stage rest done : List α} {r : Except ε (List α)} (hpick : stage.Perm (x :: rest))
      (hvisit : visit s x rest (insertNew key x done) = .ok s')
      (hrest : Walks key next visit s' (stageNew key (insertNew key x done) (next x) rest) (insertNew key x done) r) :
      Walks key next visit s stage done r

theorem walks_walk (hfuel : walk key next visit endless fuel s stage done ≠ .error endless) :
    Walks key next visit s stage done (walk key next visit endless fuel s stage done) := by
  induction fuel generalizing s stage done with
  | zero =>
    cases stage with
    | nil => exact .done s done
    | cons x stage => exact absurd rfl hfuel
  | succ fuel ih =>
    cases stage with
    | nil => exact .done s done
    | cons x stage =>
      unfold walk at hfuel ⊢
      cases hvisit : visit s x stage (insertNew key x done) with
      | error e => exact .stop (.refl _) hvisit
      | ok s' =>
        rw [hvisit] at hfuel
        exact .step (.refl _) hvisit (ih hfuel)

/-- What every step keeps holds where the walk ends. -/
theorem Walks.rule {k : σ → List α → List α → Prop} {r : Except ε (List α)}
    (hstep : ∀ s s' x stage rest done, stage.Perm (x :: rest) → visit s x rest (insertNew key x done) = .ok s' →
      k s stage done → k s' (stageNew key (insertNew key x done) (next x) rest) (insertNew key x done))
    (h : Walks key next visit s stage done r) (hkeeps : k s stage done) : (∃ s' out, r = .ok out ∧ k s' [] out) ∨
      ∃ s' x stage' rest done' e, r = .error e ∧ k s' stage' done' ∧ stage'.Perm (x :: rest) ∧
        visit s' x rest (insertNew key x done') = .error e := by
  induction h with
  | done s done => exact .inl ⟨s, done, rfl, hkeeps⟩
  | stop hpick hvisit => exact .inr ⟨_, _, _, _, _, _, rfl, hkeeps, hpick, hvisit⟩
  | step hpick hvisit _ ih => exact ih (hstep _ _ _ _ _ _ hpick hvisit hkeeps)

end FullNode.Worklist
