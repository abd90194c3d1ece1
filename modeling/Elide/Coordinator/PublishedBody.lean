import Elide.Coordinator.Publish

/-!
# What a published body calls live

A merge only ever does two things to a body: it adds segments and it excludes segments (`Joins`). So
the body a publish arrives at is described by the one it started from and by two sets of ULIDs.

## Main results

* `Orchestrator.mem_live_publishMerge`: the live set of a published body, in terms of its seed.
* `Orchestrator.publishMerge_quiet`: a publish with nothing to PUT arrives at its seed.
* `head_regenerated`: what the seed is when it is regenerated.
-/

namespace Elide

open SegmentHead Merge List Prod

/-! ### What a merge adds and excludes -/

namespace SegmentHead

/-- The body keeps `u` out of the live set. -/
def Excludes (head : SegmentHead) (u : Ulid) : Prop :=
  (head.superseded.get? u).isSome = true ∨ u ∈ head.tombstoned

instance (head : SegmentHead) (u : Ulid) : Decidable (head.Excludes u) :=
  inferInstanceAs (Decidable (_ ∨ _))

variable {head : SegmentHead}

theorem mem_liveSet_iff {manifestSegments : Finset Ulid} {u : Ulid} :
    u ∈ liveSet manifestSegments head ↔
      (u ∈ manifestSegments ∨ u ∈ head.added) ∧ ¬ head.Excludes u := by
  rw [mem_liveSet, Excludes, not_or, Bool.not_eq_true, Option.isSome_eq_false_iff,
    Option.isNone_iff_eq_none]

/-- A reap turns edges into tombstones and excludes nothing new. -/
theorem excludes_applyReap {reaped : List Ulid} {u : Ulid}
    (hreaped : ∀ v ∈ reaped, (head.superseded.get? v).isSome = true) :
    (head.applyReap reaped).Excludes u ↔ head.Excludes u := by
  simp only [Excludes, superseded_applyReap, mem_tombstoned_applyReap]
  by_cases hu : u ∈ reaped
  · simp [hu, hreaped u hu]
  · simp [hu]

theorem isEmpty_iff : head.isEmpty = true ↔
      head.added = ∅ ∧ head.superseded.entries = [] ∧ head.tombstoned = ∅ := by
  simp [isEmpty, and_assoc]

end SegmentHead

/-- What joins a body on the way from `head` to `head'`: the segments added, and those excluded. -/
structure Joins (head head' : SegmentHead) (adds outs : Ulid → Prop) : Prop where
  anchor : head'.anchor = head.anchor
  added : ∀ u, u ∈ head'.added ↔ u ∈ head.added ∨ adds u
  excludes : ∀ u, head'.Excludes u ↔ head.Excludes u ∨ outs u

namespace Joins

variable {head head' head'' : SegmentHead} {adds adds' outs outs' : Ulid → Prop}

theorem refl (head : SegmentHead) : Joins head head (fun _ => False) fun _ => False :=
  ⟨rfl, fun _ => by rw [or_false], fun _ => by rw [or_false]⟩

theorem trans (h : Joins head head' adds outs) (h' : Joins head' head'' adds' outs') :
    Joins head head'' (fun u => adds u ∨ adds' u) fun u => outs u ∨ outs' u :=
  ⟨h'.anchor.trans h.anchor, fun u => by rw [h'.added, h.added, or_assoc],
    fun u => by rw [h'.excludes, h.excludes, or_assoc]⟩

theorem congr (h : Joins head head' adds outs) (hadds : ∀ u, adds u ↔ adds' u)
    (houts : ∀ u, outs u ↔ outs' u) : Joins head head' adds' outs' :=
  ⟨h.anchor, fun u => by rw [h.added, hadds], fun u => by rw [h.excludes, houts]⟩

/-- A fold of steps, each with what it joins. -/
theorem foldl {σ β : Type*} (body : σ → SegmentHead) {f : σ → β → σ} {adds outs : β → Ulid → Prop}
    (hf : ∀ s b, Joins (body s) (body (f s b)) (adds b) (outs b)) (bs : List β) (s : σ) :
    Joins (body s) (body (bs.foldl f s)) (fun u => ∃ b ∈ bs, adds b u)
      fun u => ∃ b ∈ bs, outs b u := by
  induction bs generalizing s with
  | nil => exact (Joins.refl (body s)).congr (by simp) (by simp)
  | cons b bs ih => exact ((hf s b).trans (ih (f s b))).congr (by simp) (by simp)

theorem mem_liveSet_iff (h : Joins head head' adds outs) {manifestSegments : Finset Ulid}
    {u : Ulid} : u ∈ SegmentHead.liveSet manifestSegments head' ↔
      (u ∈ manifestSegments ∨ u ∈ head.added ∨ adds u) ∧ ¬ head.Excludes u ∧ ¬ outs u := by
  rw [SegmentHead.mem_liveSet_iff, h.added, h.excludes, not_or]

end Joins

namespace Merge

variable (m : Merge)

/-- The input of a waiting edge joins the cut. -/
def holds (head : SegmentHead) (input : Ulid) : Bool :=
  beyond head.anchor input && !decide (head.Excludes input)

variable {input : Ulid}

theorem holds_iff {head : SegmentHead} :
    holds head input = true ↔ beyond head.anchor input = true ∧ ¬ head.Excludes input := by
  simp [holds]

theorem holds_of_joins {head head' : SegmentHead} {adds : Ulid → Prop}
    (h : Joins head head' adds fun _ => False) (u : Ulid) : holds head' u = holds head u := by
  rw [Bool.eq_iff_iff, holds_iff, holds_iff, h.anchor, h.excludes, or_false]

theorem hold_eq (input : Ulid) : m.hold input = if holds m.1 input then m.add input else m := by
  have hcond : (beyond m.1.anchor input && decide (input ∉ m.1.tombstoned) &&
      (m.1.superseded.get? input).isNone) = holds m.1 input := by
    rw [Bool.eq_iff_iff, holds_iff, SegmentHead.Excludes]
    simp only [Bool.and_eq_true, decide_eq_true_eq, not_or, Bool.not_eq_true,
      Option.isSome_eq_false_iff]
    tauto
  rw [hold, hcond]

variable (now : ℕ)

/-- Before the barrier the reconcile treats an edge like one that waits. -/
theorem reconcile_of_not_eligible (edge : Ulid × Ulid) :
    m.reconcile false now edge = m.hold edge.1 := by
  rw [reconcile, hold]
  by_cases htomb : edge.1 ∈ m.1.tombstoned
  · simp [htomb]
  · rcases m.1.superseded.get? edge.1 with _ | e <;> simp [htomb]

/-- Behind the barrier it publishes an edge whose input is not excluded yet. -/
theorem reconcile_of_eligible (edge : Ulid × Ulid) : m.reconcile true now edge =
      if m.1.Excludes edge.1 then m else m.supersede edge.1 ⟨edge.2, now⟩ := by
  have hcond : (decide (edge.1 ∈ m.1.tombstoned) || (m.1.superseded.get? edge.1).isSome) =
      decide (m.1.Excludes edge.1) := by
    rw [Bool.eq_iff_iff, decide_eq_true_eq, Bool.or_eq_true, decide_eq_true_eq]
    exact or_comm
  rw [reconcile, hcond]
  simp

theorem joins_add (u : Ulid) : Joins m.1 (m.add u).1 (· = u) fun _ => False := by
  refine ⟨rfl, fun v => ?_, fun v => ?_⟩
  · simp only [add, Finset.mem_insert]
    exact or_comm
  · simp [add, SegmentHead.Excludes]

theorem joins_supersede (input : Ulid) (edge : Supersession) :
    Joins m.1 (m.supersede input edge).1 (fun _ => False) (· = input) := by
  refine ⟨rfl, fun v => ?_, fun v => ?_⟩
  · simp [supersede]
  · simp only [supersede, SegmentHead.Excludes, OrdMap.get?_insert]
    split_ifs with hv <;> simp [hv]

theorem joins_foldl_add (us : List Ulid) :
    Joins m.1 (us.foldl add m).1 (· ∈ us) fun _ => False :=
  (Joins.foldl fst joins_add us m).congr (by simp) (by simp)

theorem joins_foldl_supersede (edges : List (Ulid × Supersession)) :
    Joins m.1 (edges.foldl (fun m e => m.supersede e.1 e.2) m).1 (fun _ => False)
      (· ∈ edges.map fst) :=
  (Joins.foldl fst (fun m e => joins_supersede m e.1 e.2) edges m).congr (by simp) (by simp)

theorem joins_foldl_hold (us : List Ulid) :
    Joins m.1 (us.foldl hold m).1 (fun u => u ∈ us ∧ holds m.1 u = true) fun _ => False := by
  induction us generalizing m with
  | nil => exact (Joins.refl m.1).congr (by simp) (by simp)
  | cons u us ih =>
    have hrest := ih (m.hold u)
    rw [foldl_cons]
    rw [hold_eq] at hrest ⊢
    split_ifs at hrest ⊢ with hu
    · -- the added segment changes neither the anchor nor what is excluded
      refine ((m.joins_add u).trans hrest).congr (fun v => ?_) (by simp)
      constructor
      · rintro (rfl | ⟨hv, hholds⟩)
        · exact ⟨mem_cons_self, hu⟩
        · exact ⟨mem_cons_of_mem _ hv, hholds⟩
      · rintro ⟨hv, hholds⟩
        exact (mem_cons.mp hv).imp id fun hv => ⟨hv, hholds⟩
    · refine hrest.congr (fun v => ?_) (by simp)
      constructor
      · rintro ⟨hv, hholds⟩
        exact ⟨mem_cons_of_mem _ hv, hholds⟩
      · rintro ⟨hv, hholds⟩
        rcases mem_cons.mp hv with rfl | hv
        · exact absurd hholds hu
        · exact ⟨hv, hholds⟩

theorem joins_reconcile (edge : Ulid × Ulid) :
    Joins m.1 (m.reconcile true now edge).1 (fun _ => False) (· = edge.1) := by
  rw [reconcile_of_eligible]
  split_ifs with hskip
  · refine ⟨rfl, fun u => (or_false _).symm.to_iff, fun u => (or_iff_left_of_imp ?_).symm⟩
    rintro rfl
    exact hskip
  · exact m.joins_supersede edge.1 ⟨edge.2, now⟩

theorem joins_foldl_reconcile (edges : List (Ulid × Ulid)) :
    Joins m.1 (edges.foldl (reconcile true now) m).1 (fun _ => False) (· ∈ edges.map fst) :=
  (Joins.foldl fst (fun m e => joins_reconcile m now e) edges m).congr (by simp) (by simp)

/-! ### Merges that change nothing -/

/-- The step changes nothing when it reports no change. -/
def Quiet {α : Type*} (f : Merge → α → Merge) : Prop := ∀ m a, (f m a).2 = false → f m a = m

theorem quiet_add : Quiet add := by
  intro m u h
  simp only [add, Bool.or_eq_false_iff, decide_eq_false_iff_not, not_not] at h ⊢
  simp [h.2]

theorem quiet_supersede : Quiet fun m (e : Ulid × Supersession) => m.supersede e.1 e.2 := by
  rintro ⟨head, mutated⟩ ⟨input, edge⟩ h
  simp only [supersede, Bool.or_eq_false_iff, decide_eq_false_iff_not, not_not] at h ⊢
  have hsame : head.superseded.insert input edge = head.superseded := by
    refine OrdMap.ext_get? fun u => ?_
    rw [OrdMap.get?_insert]
    split_ifs with hu
    · rw [hu, h.2]
    · rfl
  rw [hsame]
  simp [h.2]

theorem quiet_hold : Quiet hold := by
  intro m u h
  rw [hold_eq] at h ⊢
  split_ifs at h ⊢
  · exact quiet_add m u h
  · rfl

theorem quiet_reconcile (eligible : Bool) (now : ℕ) : Quiet (reconcile eligible now) := by
  intro m edge h
  rw [reconcile] at h ⊢
  split_ifs at h ⊢
  · rfl
  · exact quiet_supersede m (edge.1, ⟨edge.2, now⟩) h
  · exact quiet_add m _ h
  · rfl

theorem Quiet.foldl {α : Type*} {f : Merge → α → Merge} (hf : Quiet f) {m : Merge} {l : List α}
    (h : (l.foldl f m).2 = false) : l.foldl f m = m := by
  induction l generalizing m with
  | nil => rfl
  | cons a l ih =>
    have hrest : l.foldl f (f m a) = f m a := ih h
    rw [foldl_cons] at h ⊢
    rw [hrest] at h ⊢
    exact hf m a h

end Merge

namespace Orchestrator

variable (o : Orchestrator) (fork : ForkFiles) (env : PublishEnv) (reconcileEdges : Bool)

/-- The inputs of all edges a merge before the barrier looks at. -/
def waitingInputs (anchor : Option Ulid) : List Ulid :=
  (reconciled fork env reconcileEdges anchor).map fst ++ o.tickSuperseded.map fst

/-- The inputs of all edges a merge behind the barrier publishes. -/
def publishedInputs (anchor : Option Ulid) : List Ulid :=
  (reconciled fork env reconcileEdges anchor).map fst ++ (o.publishable anchor).map fst

/-- **Behind the barrier** a merge adds the confirmed segments and excludes the inputs of all
edges. -/
theorem joins_merge_of_eligible (h : o.edgesEligible = true) (m : Merge) :
    Joins m.1 (o.merge fork env reconcileEdges m).1
      (· ∈ (fork.confirmedSegments m.1.anchor).map fst)
      (· ∈ o.publishedInputs fork env reconcileEdges m.1.anchor) := by
  have h1 := m.joins_foldl_add ((fork.confirmedSegments m.1.anchor).map fst)
  set m1 := ((fork.confirmedSegments m.1.anchor).map fst).foldl add m with hm1
  have h2 := m1.joins_foldl_reconcile env.now (reconciled fork env reconcileEdges m1.1.anchor)
  set m2 := (reconciled fork env reconcileEdges m1.1.anchor).foldl (reconcile true env.now) m1
    with hm2
  have h3 := m2.joins_foldl_supersede (o.publishable m2.1.anchor)
  have heq : (o.merge fork env reconcileEdges m).1 =
      ((o.publishable m2.1.anchor).foldl (fun m e => m.supersede e.1 e.2) m2).1 := by
    simp [merge, h, ← hm1, ← hm2]
  rw [heq]
  refine ((h1.trans h2).trans h3).congr (by simp) fun u => ?_
  rw [publishedInputs, h2.anchor, h1.anchor]
  simp

/-- **Before the barrier** a merge adds the confirmed segments and the inputs of all edges beyond the
anchor that are not excluded, and excludes nothing. -/
theorem joins_merge_of_not_eligible (h : o.edgesEligible = false) (m : Merge) :
    Joins m.1 (o.merge fork env reconcileEdges m).1
      (fun u => u ∈ (fork.confirmedSegments m.1.anchor).map fst ∨
        u ∈ o.waitingInputs fork env reconcileEdges m.1.anchor ∧ holds m.1 u = true)
      fun _ => False := by
  have h1 := m.joins_foldl_add ((fork.confirmedSegments m.1.anchor).map fst)
  set m1 := ((fork.confirmedSegments m.1.anchor).map fst).foldl add m with hm1
  have h2 := m1.joins_foldl_hold ((reconciled fork env reconcileEdges m1.1.anchor).map fst)
  set m2 := ((reconciled fork env reconcileEdges m1.1.anchor).map fst).foldl hold m1 with hm2
  have h3 := m2.joins_foldl_hold (o.tickSuperseded.map fst)
  have hfold : (reconciled fork env reconcileEdges m1.1.anchor).foldl
      (reconcile false env.now) m1 = m2 := by
    rw [hm2, foldl_map]
    congr 1
    funext m e
    exact m.reconcile_of_not_eligible env.now e
  have heq : (o.merge fork env reconcileEdges m).1 =
      ((o.tickSuperseded.map fst).foldl hold m2).1 := by
    simp [merge, h, ← hm1, hfold]
  rw [heq]
  refine ((h1.trans h2).trans h3).congr (fun u => ?_) (by simp)
  rw [waitingInputs, mem_append, holds_of_joins h2, holds_of_joins h1, ← h1.anchor,
    or_and_right, or_assoc]

theorem anchor_merge (m : Merge) :
    (o.merge fork env reconcileEdges m).1.anchor = m.1.anchor := by
  cases h : o.edgesEligible with
  | true => exact (o.joins_merge_of_eligible fork env reconcileEdges h m).anchor
  | false => exact (o.joins_merge_of_not_eligible fork env reconcileEdges h m).anchor

/-- A merge that reports no change made none. -/
theorem merge_quiet {m : Merge} (h : (o.merge fork env reconcileEdges m).2 = false) :
    o.merge fork env reconcileEdges m = m := by
  simp only [merge] at h ⊢
  split_ifs at h ⊢
  · have h3 := quiet_supersede.foldl h
    rw [h3] at h ⊢
    have h2 := (quiet_reconcile _ _).foldl h
    rw [h2] at h ⊢
    exact quiet_add.foldl h
  · have h3 := quiet_hold.foldl h
    rw [h3] at h ⊢
    have h2 := (quiet_reconcile _ _).foldl h
    rw [h2] at h ⊢
    exact quiet_add.foldl h

end Orchestrator

/-! ### The seed -/

namespace ForkFiles

variable (fork : ForkFiles)

/-- The inputs the signed tables of the confirmed segments beyond `anchor` record. -/
def confirmedInputs (anchor : Option Ulid) : List Ulid :=
  (fork.confirmedEdges anchor).map fst

end ForkFiles

/-- The seed regenerated from a fork. -/
abbrev ForkFiles.regenerated (fork : ForkFiles) (now : ℕ) : Seed := .regenerated (fork.regenerate now)

/-- What a merge takes from a regenerated body: before the barrier, all of it without the edges. -/
theorem head_regenerated (fork : ForkFiles) (now : ℕ) (eligible : Bool) :
    ((fork.regenerated now).head eligible).anchor = fork.latestSnapshot ∧
      (∀ u, u ∈ ((fork.regenerated now).head eligible).added ↔
        u ∈ (fork.confirmedSegments fork.latestSnapshot).map fst ∨
          u ∈ fork.confirmedInputs fork.latestSnapshot) ∧
      ∀ u, ((fork.regenerated now).head eligible).Excludes u ↔
        eligible = true ∧ u ∈ fork.confirmedInputs fork.latestSnapshot := by
  have htomb : (fork.regenerate now).tombstoned = ∅ := by
    refine foldlRecOn (motive := fun head : SegmentHead => head.tombstoned = ∅) _ _ ?_
      fun _ h _ _ => h
    exact foldlRecOn (motive := fun head : SegmentHead => head.tombstoned = ∅) _ _ rfl
      fun _ h _ _ => h
  -- the segments are added, and each edge adds its input and excludes it
  have hadd : ∀ (head : SegmentHead) (e : Ulid × List Ulid), Joins head
      { head with added := insert e.1 head.added } (· = e.1) fun _ => False :=
    fun head e => joins_add (head, false) e.1
  have hedge : ∀ (head : SegmentHead) (e : Ulid × Ulid), Joins head
      { head with
        added := insert e.1 head.added
        superseded := head.superseded.insert e.1 ⟨e.2, now⟩ } (· = e.1) (· = e.1) := fun head e =>
    ((joins_add (head, false) e.1).trans
      (joins_supersede (add (head, false) e.1) e.1 ⟨e.2, now⟩)).congr (by simp) (by simp)
  have h := (Joins.foldl (fun head => head) hadd (fork.confirmedSegments fork.latestSnapshot)
    (.empty fork.latestSnapshot)).trans (Joins.foldl (fun head => head) hedge
      (fork.confirmedEdges fork.latestSnapshot) _)
  cases eligible with
  | true =>
    refine ⟨h.anchor, fun u => (h.added u).trans ?_, fun u => (h.excludes u).trans ?_⟩
    · simp [empty, ForkFiles.confirmedInputs]
    · simp [SegmentHead.Excludes, empty, ForkFiles.confirmedInputs]
  | false =>
    refine ⟨h.anchor, fun u => (h.added u).trans ?_, fun u => ?_⟩
    · simp [empty, ForkFiles.confirmedInputs]
    · simp [Seed.head, SegmentHead.Excludes, htomb]

/-! ### A publish -/

namespace Orchestrator

variable (o : Orchestrator) (fork : ForkFiles) (env : PublishEnv) (seed : Seed)

theorem isSome_of_mem_publishReaps {u : Ulid} (hu : u ∈ o.publishReaps fork env seed) :
    ((seed.head o.edgesEligible).superseded.get? u).isSome = true := by
  rw [publishReaps] at hu
  split_ifs at hu
  · exact isSome_of_mem_reapable hu
  · cases hu

/-- What a publish starts its merge from is the seed after the reap. -/
theorem publishMerge_eq : ∃ mutated, (seed.repaired o.edgesEligible = true → mutated = true) ∧
    (mutated = false → (seed.head o.edgesEligible).applyReap (o.publishReaps fork env seed) =
      seed.head o.edgesEligible) ∧
    o.publishMerge fork env seed =
      o.merge fork env (seed.reconciles o.edgesEligible o.reconcileEdges)
        ((seed.head o.edgesEligible).applyReap (o.publishReaps fork env seed), mutated) := by
  rw [publishMerge, publishReaps]
  cases hdue : env.reapDue with
  | false => exact ⟨seed.repaired o.edgesEligible || false, by simp, fun _ => rfl, rfl⟩
  | true =>
    refine ⟨seed.repaired o.edgesEligible ||
      ((seed.head o.edgesEligible).reapExpired (env.reap fork)).2, by simp +contextual, ?_, ?_⟩
    · intro h
      rw [if_pos rfl, ← fst_reapExpired]
      exact reapExpired_quiet (Bool.or_eq_false_iff.mp h).2
    · rw [if_pos rfl, if_pos rfl, fst_reapExpired]

/-- **What a published body calls live**, in terms of the seed: the reap changes nothing here, since
it deletes what the seed excludes already. -/
theorem mem_live_publishMerge {manifestSegments : Finset Ulid} {u : Ulid} :
    u ∈ SegmentHead.liveSet manifestSegments (o.publishMerge fork env seed).1 ↔
      (u ∈ manifestSegments ∨ u ∈ (seed.head o.edgesEligible).added ∨
        u ∈ (fork.confirmedSegments (seed.head o.edgesEligible).anchor).map fst ∨
        o.edgesEligible = false ∧
          u ∈ o.waitingInputs fork env (seed.reconciles o.edgesEligible o.reconcileEdges)
            (seed.head o.edgesEligible).anchor ∧
          beyond (seed.head o.edgesEligible).anchor u = true) ∧
      ¬ (seed.head o.edgesEligible).Excludes u ∧
      ¬ (o.edgesEligible = true ∧
        u ∈ o.publishedInputs fork env (seed.reconciles o.edgesEligible o.reconcileEdges)
          (seed.head o.edgesEligible).anchor) := by
  obtain ⟨mutated, -, -, heq⟩ := o.publishMerge_eq fork env seed
  have hreaped := fun v => o.isSome_of_mem_publishReaps fork env seed (u := v)
  have hex := excludes_applyReap (u := u) hreaped
  have hadded : ¬ (seed.head o.edgesEligible).Excludes u →
      (u ∈ ((seed.head o.edgesEligible).applyReap (o.publishReaps fork env seed)).added ↔
        u ∈ (seed.head o.edgesEligible).added) := by
    intro hnot
    rw [mem_added_applyReap]
    exact and_iff_left fun hmem => hnot (.inl (hreaped u hmem))
  rw [heq]
  cases hel : o.edgesEligible with
  | true =>
    rw [(o.joins_merge_of_eligible fork env _ hel _).mem_liveSet_iff]
    simp only [hel] at hex hadded ⊢
    rw [hex, anchor_applyReap]
    constructor
    · rintro ⟨h1, h2, h3⟩
      exact ⟨h1.imp_right (Or.imp (hadded h2).mp .inl), h2, fun h => h3 h.2⟩
    · rintro ⟨h1, h2, h3⟩
      refine ⟨h1.imp_right (Or.imp (hadded h2).mpr ?_), h2, fun h => h3 ⟨trivial, h⟩⟩
      rintro (h | ⟨h, -⟩)
      · exact h
      · cases h
  | false =>
    rw [(o.joins_merge_of_not_eligible fork env _ hel _).mem_liveSet_iff]
    simp only [hel] at hex hadded ⊢
    rw [holds_iff, hex, anchor_applyReap]
    constructor
    · rintro ⟨h1, h2, -⟩
      refine ⟨h1.imp_right (Or.imp (hadded h2).mp (Or.imp_right ?_)), h2, by simp⟩
      exact fun h => ⟨trivial, h.1, h.2.1⟩
    · rintro ⟨h1, h2, -⟩
      refine ⟨h1.imp_right (Or.imp (hadded h2).mpr (Or.imp_right ?_)), h2, by simp⟩
      exact fun h => ⟨h.2.1, h.2.2, h2⟩

/-- A published body excludes what its seed excludes and, behind the barrier, the inputs of the edges
it publishes. -/
theorem excludes_publishMerge {u : Ulid} :
    (o.publishMerge fork env seed).1.Excludes u ↔ (seed.head o.edgesEligible).Excludes u ∨
      o.edgesEligible = true ∧
        u ∈ o.publishedInputs fork env (seed.reconciles o.edgesEligible o.reconcileEdges)
          (seed.head o.edgesEligible).anchor := by
  -- a segment of the manifest is live exactly when it is not excluded
  have hmem := @mem_live_publishMerge o fork env seed {u} u
  rw [SegmentHead.mem_liveSet_iff] at hmem
  simp only [Finset.mem_singleton, true_or, true_and] at hmem
  rw [← not_iff_not, hmem, not_or]

theorem anchor_publishMerge :
    (o.publishMerge fork env seed).1.anchor = (seed.head o.edgesEligible).anchor := by
  obtain ⟨mutated, -, -, heq⟩ := o.publishMerge_eq fork env seed
  rw [heq, anchor_merge, anchor_applyReap]

/-- A publish with nothing to PUT arrives at its seed, which was no repair. -/
theorem publishMerge_quiet (h : (o.publishMerge fork env seed).2 = false) :
    (o.publishMerge fork env seed).1 = seed.head o.edgesEligible ∧
      seed.repaired o.edgesEligible = false := by
  obtain ⟨mutated, hrepaired, hreaps, heq⟩ := o.publishMerge_eq fork env seed
  rw [heq] at h ⊢
  have hquiet := o.merge_quiet fork env _ h
  rw [hquiet] at h ⊢
  refine ⟨hreaps h, ?_⟩
  cases hr : seed.repaired o.edgesEligible with
  | false => rfl
  | true => exact absurd (hrepaired hr) (by rw [show mutated = false from h]; decide)

end Orchestrator

end Elide
