import Elide.MapLayers.Basic

/-!
# What the index operations do to lookups

One lemma for each operation and each of the three lookups it changes: DATA locations, Delta
locations and journal-tier bodies. A lookup an operation leaves alone is left alone by computation.
Replaying a layer (`Maps.fold`) keeps what is there and adds what is not.
-/

namespace Elide

open Option DeltaOption

namespace ExtentIndex

variable (x : ExtentIndex) (h k : Hash) (loc : ExtentLocation)

/-! ## The durable tier -/

theorem lookup_insertIfAbsent : (x.insertIfAbsent h loc).1.lookup k =
      if k = h then (x.lookup h).or (some loc) else x.lookup k := by
  rw [insertIfAbsent, lookup, lookup]
  cases hl : x.inner.lookup h with
  | none => exact AList.lookup_insert_ite _ _ _ _
  | some l =>
    split_ifs with hk
    · subst hk
      exact hl
    · rfl

theorem insertIfAbsent_frame : (x.insertIfAbsent h loc).1.deltas = x.deltas ∧
      (x.insertIfAbsent h loc).1.journal = x.journal := by
  rw [insertIfAbsent]
  cases x.inner.lookup h <;> exact ⟨rfl, rfl⟩

/-- The DATA location of `h` is the one a compare-and-swap expects. -/
def IsAt (seg : Ulid) (off : ℕ) : Prop :=
  ∃ l, x.lookup h = some l ∧ l.segmentId = seg ∧ l.bodyOffset = off

variable {seg : Ulid} {off : ℕ}

theorem isAt_iff {l : ExtentLocation} (hl : x.lookup h = some l) :
    x.IsAt h seg off ↔ l.segmentId = seg ∧ l.bodyOffset = off := by
  simp [IsAt, hl]

/-- A compare-and-swap changes the one location it expects. -/
theorem lookup_replaceIfMatches [Decidable (x.IsAt h seg off)] :
    (x.replaceIfMatches h seg off loc).1.lookup k =
      if k = h ∧ x.IsAt h seg off then some loc else x.lookup k := by
  rw [replaceIfMatches]
  cases hl : x.inner.lookup h with
  | none => simp [IsAt, lookup, hl]
  | some l =>
    by_cases hm : l.segmentId = seg ∧ l.bodyOffset = off
    · simp only [if_pos hm, (x.isAt_iff h hl).mpr hm, and_true]
      exact AList.lookup_insert_ite _ _ _ _
    · simp [x.isAt_iff h hl, hm]

theorem replaceIfMatches_frame (seg : Ulid) (off : ℕ) :
    (x.replaceIfMatches h seg off loc).1.deltas = x.deltas ∧
      (x.replaceIfMatches h seg off loc).1.journal = x.journal := by
  rw [replaceIfMatches]
  split
  · split_ifs <;> exact ⟨rfl, rfl⟩
  · exact ⟨rfl, rfl⟩

theorem lookup_removeIfMatches [Decidable (x.IsAt h seg off)] :
    (x.removeIfMatches h seg off).1.lookup k =
      if k = h ∧ x.IsAt h seg off then none else x.lookup k := by
  rw [removeIfMatches]
  cases hl : x.inner.lookup h with
  | none => simp [IsAt, lookup, hl]
  | some l =>
    by_cases hm : l.segmentId = seg ∧ l.bodyOffset = off
    · simp only [if_pos hm, (x.isAt_iff h hl).mpr hm, and_true]
      exact AList.lookup_erase_ite _ _ _
    · simp [x.isAt_iff h hl, hm]

theorem removeIfMatches_frame (seg : Ulid) (off : ℕ) :
    (x.removeIfMatches h seg off).1.deltas = x.deltas ∧
      (x.removeIfMatches h seg off).1.journal = x.journal := by
  rw [removeIfMatches]
  split
  · split_ifs <;> exact ⟨rfl, rfl⟩
  · exact ⟨rfl, rfl⟩

/-! ## The journal tier -/

theorem lookupJournal_insertJournalIfAbsent (s t : Ulid) :
    (x.insertJournalIfAbsent s h loc).1.lookupJournal t k =
      if t = s ∧ k = h then (x.lookupJournal s h).or (some loc) else x.lookupJournal t k := by
  have hsub : ∀ k', ((x.journal.lookup s).getD ∅).lookup k' = x.lookupJournal s k' := by
    intro k'
    rw [lookupJournal]
    cases x.journal.lookup s <;> rfl
  by_cases ht : t = s
  · subst ht
    simp only [insertJournalIfAbsent, hsub, true_and]
    cases hl : x.lookupJournal t h with
    | none =>
      simp only [lookupJournal, AList.lookup_insert, bind_some]
      rw [AList.lookup_insert_ite, hsub]
      rfl
    | some l =>
      simp only [lookupJournal, AList.lookup_insert, bind_some]
      split_ifs with hk
      · subst hk
        rw [hsub, hl]
        rfl
      · exact hsub k
  · rw [if_neg (fun hc => ht hc.1)]
    simp only [insertJournalIfAbsent]
    cases ((x.journal.lookup s).getD ∅).lookup h <;>
      simp only [lookupJournal, AList.lookup_insert_ne ht]

theorem insertJournalIfAbsent_frame (s : Ulid) :
    (x.insertJournalIfAbsent s h loc).1.inner = x.inner ∧
      (x.insertJournalIfAbsent s h loc).1.deltas = x.deltas := by
  simp only [insertJournalIfAbsent]
  cases ((x.journal.lookup s).getD ∅).lookup h <;> exact ⟨rfl, rfl⟩

theorem lookupJournal_takeJournal (s t : Ulid) : (x.takeJournal s h).1.lookupJournal t k =
      if t = s ∧ k = h then none else x.lookupJournal t k := by
  rw [takeJournal]
  cases hs : x.journal.lookup s with
  | none =>
    split_ifs with hc
    · obtain ⟨rfl, rfl⟩ := hc
      simp [lookupJournal, hs]
    · rfl
  | some seg =>
    by_cases ht : t = s
    · subst ht
      have hold : ∀ k', x.lookupJournal t k' = seg.lookup k' := by
        intro k'
        rw [lookupJournal, hs, bind_some]
      rw [lookupJournal, hold]
      simp only [true_and]
      refine Eq.trans ?_ (AList.lookup_erase_ite _ _ _)
      split_ifs with hempty
      · -- a submap that empties is dropped whole
        have hnil : (seg.erase h).entries = [] := by simpa using hempty
        rw [AList.lookup_erase, AList.lookup, hnil]
        rfl
      · rw [AList.lookup_insert, bind_some]
    · rw [if_neg (fun hc => ht hc.1)]
      dsimp only
      rw [lookupJournal, lookupJournal]
      split_ifs
      · rw [AList.lookup_erase_ne ht]
      · rw [AList.lookup_insert_ne ht]

theorem takeJournal_frame (s : Ulid) :
    (x.takeJournal s h).1.inner = x.inner ∧ (x.takeJournal s h).1.deltas = x.deltas ∧
      (x.takeJournal s h).2 = x.lookupJournal s h := by
  rw [takeJournal, lookupJournal]
  cases x.journal.lookup s <;> exact ⟨rfl, rfl, rfl⟩

/-- A re-key moves the body when there is one, and does nothing otherwise. -/
theorem lookupJournal_rekeyJournal {s t : Ulid} (hst : s ≠ t) (u : Ulid) :
    (x.rekeyJournal s t h loc).lookupJournal u k =
      if (x.lookupJournal s h).isSome ∧ k = h ∧ (u = s ∨ u = t) then
        if u = t then some loc else none
      else x.lookupJournal u k := by
  obtain ⟨-, -, htake⟩ := x.takeJournal_frame h s
  have hlook := x.lookupJournal_takeJournal h k s u
  rw [rekeyJournal]
  cases hx : x.takeJournal s h with
  | mk y taken =>
    rw [hx] at htake hlook
    cases htaken : taken with
    | none =>
      rw [htaken] at htake
      have hno : ¬ ((x.lookupJournal s h).isSome = true ∧ k = h ∧ (u = s ∨ u = t)) := by
        rw [← htake]
        simp
      rw [hlook]
      split_ifs with hc
      · obtain ⟨rfl, rfl⟩ := hc
        exact htake
      · rfl
    | some l =>
      rw [htaken] at htake
      by_cases hut : u = t
      · subst hut
        have hsub : ((y.journal.lookup u).getD ∅).lookup k = x.lookupJournal u k := by
          rw [if_neg (fun hc => hst hc.1.symm)] at hlook
          rw [← hlook, lookupJournal]
          cases y.journal.lookup u <;> rfl
        simp only [lookupJournal, AList.lookup_insert, bind_some, or_true, and_true]
        by_cases hk : k = h
        · subst hk
          rw [← lookupJournal, ← htake]
          simp
        · rw [AList.lookup_insert_ne hk, hsub, if_neg (fun hc => hk hc.2)]
          rfl
      · rw [lookupJournal, AList.lookup_insert_ne hut]
        have hy : ((y.journal.lookup u).bind fun seg => seg.lookup k) = y.lookupJournal u k := rfl
        rw [hy, hlook, ← htake]
        simp only [isSome_some, true_and, hut, or_false]
        exact if_congr and_comm rfl rfl

theorem rekeyJournal_frame (s t : Ulid) :
    (x.rekeyJournal s t h loc).inner = x.inner ∧ (x.rekeyJournal s t h loc).deltas = x.deltas := by
  obtain ⟨hinner, hdeltas, -⟩ := x.takeJournal_frame h s
  rw [rekeyJournal]
  cases hx : x.takeJournal s h with
  | mk y taken =>
    rw [hx] at hinner hdeltas
    cases taken <;> exact ⟨hinner, hdeltas⟩

/-! ## Registering a Delta -/

theorem recordSources_frame (s : Ulid) (sources : List Hash) :
    (x.recordSources s h sources).inner = x.inner ∧
      (x.recordSources s h sources).deltas = x.deltas ∧
      (x.recordSources s h sources).journal = x.journal := by
  simp only [recordSources, bumpSourceCounts]
  cases ((x.deltaSources.lookup s).getD ∅).lookup h <;> exact ⟨rfl, rfl, rfl⟩

theorem registerDelta_frame (e : SegmentEntry) (i : ℕ) (s : Ulid) (b : DeltaBodySource)
    (a : Admission) :
    (x.registerDelta e i s b a).inner = x.inner ∧
      (x.registerDelta e i s b a).journal = x.journal := by
  obtain ⟨hinner, -, hjournal⟩ := x.recordSources_frame e.hash s
    (e.deltaOptions.map sourceHash)
  simp only [registerDelta]
  split_ifs <;> first | exact ⟨rfl, rfl⟩ | exact ⟨hinner, hjournal⟩

theorem lookupDelta_registerDelta (e : SegmentEntry) (i : ℕ) (s : Ulid) (b : DeltaBodySource)
    (a : Admission) :
    (x.registerDelta e i s b a).lookupDelta k =
      if k = e.hash ∧ x.admitsDelta e.hash a then some ⟨s, i, b, e.deltaOptions⟩
      else x.lookupDelta k := by
  obtain ⟨-, hdeltas, -⟩ := x.recordSources_frame e.hash s
    (e.deltaOptions.map sourceHash)
  have hrecorded : (if e.deltaOptions.isEmpty then x
      else x.recordSources s e.hash (e.deltaOptions.map sourceHash)).deltas =
      x.deltas := by
    split_ifs
    · rfl
    · exact hdeltas
  simp only [registerDelta, lookupDelta]
  by_cases hadm : x.admitsDelta e.hash a = true
  · simp only [hadm, and_true]
    rw [hrecorded]
    exact AList.lookup_insert_ite _ _ _ _
  · simp only [hadm, Bool.false_eq_true, if_false, and_false]
    rw [hrecorded]

end ExtentIndex

/-! ## Replaying a layer -/

namespace Maps

open ExtentIndex

variable (x : ExtentIndex)

theorem lookup_foldl_insertIfAbsent (es : List (Σ _ : Hash, ExtentLocation)) (h : Hash) :
    (es.foldl (fun x e => (x.insertIfAbsent e.1 e.2).1) x).lookup h =
      (x.lookup h).or (es.dlookup h) := by
  induction es generalizing x with
  | nil => exact (or_none).symm
  | cons e es ih =>
    obtain ⟨k, loc⟩ := e
    rw [List.foldl_cons, ih, lookup_insertIfAbsent]
    split_ifs with hk
    · subst hk
      rw [List.dlookup_cons_eq]
      cases x.lookup h <;> rfl
    · rw [List.dlookup_cons_ne _ _ hk]

theorem foldl_insertIfAbsent_frame (es : List (Σ _ : Hash, ExtentLocation)) :
    (es.foldl (fun x e => (x.insertIfAbsent e.1 e.2).1) x).deltas = x.deltas ∧
      (es.foldl (fun x e => (x.insertIfAbsent e.1 e.2).1) x).journal = x.journal := by
  induction es generalizing x with
  | nil => exact ⟨rfl, rfl⟩
  | cons e es ih =>
    obtain ⟨h1, h2⟩ := x.insertIfAbsent_frame e.1 e.2
    obtain ⟨h3, h4⟩ := ih (x.insertIfAbsent e.1 e.2).1
    exact ⟨h3.trans h1, h4.trans h2⟩

theorem lookupJournal_foldl_submap (s : Ulid)
    (es : List (Σ _ : Hash, ExtentLocation)) (t : Ulid) (h : Hash) :
    (es.foldl (fun x e => (x.insertJournalIfAbsent s e.1 e.2).1) x).lookupJournal t h =
      if t = s then (x.lookupJournal t h).or (es.dlookup h) else x.lookupJournal t h := by
  induction es generalizing x with
  | nil =>
    rw [List.foldl_nil, List.dlookup_nil, or_none, ite_self]
  | cons e es ih =>
    obtain ⟨k, loc⟩ := e
    rw [List.foldl_cons, ih, lookupJournal_insertJournalIfAbsent]
    by_cases ht : t = s
    · subst ht
      simp only [true_and, if_true]
      split_ifs with hk
      · subst hk
        rw [List.dlookup_cons_eq]
        cases x.lookupJournal t h <;> rfl
      · rw [List.dlookup_cons_ne _ _ hk]
    · simp [ht]

theorem lookupJournal_foldl_journal
    (segs : List (Σ _ : Ulid, AList fun _ : Hash => ExtentLocation)) (hsegs : segs.NodupKeys)
    (t : Ulid) (h : Hash) :
    (segs.foldl (fun x seg => seg.2.entries.foldl
      (fun x e => (x.insertJournalIfAbsent seg.1 e.1 e.2).1) x) x).lookupJournal t h =
      (x.lookupJournal t h).or ((segs.dlookup t).bind fun seg => seg.lookup h) := by
  induction segs generalizing x with
  | nil => exact (or_none).symm
  | cons seg segs ih =>
    obtain ⟨s, sub⟩ := seg
    obtain ⟨hnot, hrest⟩ := List.nodupKeys_cons.mp hsegs
    rw [List.foldl_cons, ih _ hrest, lookupJournal_foldl_submap]
    split_ifs with ht
    · subst ht
      -- no later submap has the same key
      have hnone : segs.dlookup t = none := List.dlookup_eq_none.mpr hnot
      rw [List.dlookup_cons_eq, hnone, bind_none, or_none]
      rfl
    · rw [List.dlookup_cons_ne _ _ ht]

theorem foldl_journal_frame (segs : List (Σ _ : Ulid, AList fun _ : Hash => ExtentLocation)) :
    (segs.foldl (fun x seg => seg.2.entries.foldl
      (fun x e => (x.insertJournalIfAbsent seg.1 e.1 e.2).1) x) x).inner = x.inner ∧
    (segs.foldl (fun x seg => seg.2.entries.foldl
      (fun x e => (x.insertJournalIfAbsent seg.1 e.1 e.2).1) x) x).deltas = x.deltas := by
  have hfold : ∀ {α : Type} {f : ExtentIndex → α → ExtentIndex},
      (∀ x a, (f x a).inner = x.inner ∧ (f x a).deltas = x.deltas) → ∀ (as : List α) x,
      (as.foldl f x).inner = x.inner ∧ (as.foldl f x).deltas = x.deltas := by
    intro α f hf as x
    refine List.foldlRecOn (motive := fun y => y.inner = x.inner ∧ y.deltas = x.deltas) as f
      ⟨rfl, rfl⟩ fun y h a _ => ?_
    exact ⟨(hf y a).1.trans h.1, (hf y a).2.trans h.2⟩
  exact hfold (fun x seg =>
    hfold (fun x e => x.insertJournalIfAbsent_frame e.1 e.2 seg.1) seg.2.entries x) segs x

variable (base layer : Maps)

theorem lookupExtent_fold (h : Hash) : (base.fold layer).extentIndex.lookup h =
      (base.extentIndex.lookup h).or (layer.extentIndex.lookup h) := by
  refine Eq.trans ?_ (lookup_foldl_insertIfAbsent base.extentIndex layer.extentIndex.inner.entries h)
  rw [lookup, lookup]
  simp [fold, (foldl_journal_frame _ _).1]

theorem lookupDelta_fold (h : Hash) :
    (base.fold layer).extentIndex.lookupDelta h = base.extentIndex.lookupDelta h := by
  rw [lookupDelta, lookupDelta]
  simp [fold, (foldl_journal_frame _ _).2, (foldl_insertIfAbsent_frame _ _).1]

theorem lookupJournal_fold (s : Ulid) (h : Hash) : (base.fold layer).extentIndex.lookupJournal s h =
      (base.extentIndex.lookupJournal s h).or (layer.extentIndex.lookupJournal s h) := by
  refine (lookupJournal_foldl_journal _ _ layer.extentIndex.journal.nodupKeys s h).trans ?_
  rw [lookupJournal, (foldl_insertIfAbsent_frame _ _).2]
  rfl

end Maps

end Elide
