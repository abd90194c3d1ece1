import Elide.ExtentIndex.Basic
import Elide.Lib.Run
import Mathlib.Algebra.GroupWithZero.Nat

/-!
# Delta sources stay pinned

A Delta location can be read only while the body of one of its sources is there, so liveness pins
every source that some recorded encoding names. The home slot of a hash keeps the first encoding
that was admitted, while the record of a segment and hash keeps the last one registered: the two
can come to name different sources.

`ExtentIndex.Pinned` is what reads rely on. Only a purge and a registration take records away. Such a
step keeps `Pinned` exactly when each source that goes with its record, and that a slot it does not
take itself names, is one of the new encoding's sources or is in a record that stays
(`ExtentIndex.KeepsHeldSources`, on the state before the step). A run keeps it in every state exactly
when every step meets that.

## Main results

* `ExtentIndex.sourcesExact_run` — the maintained counts are those of the records
* `ExtentIndex.sources_counted` — the same for every update of the index, and no decrement meets
  an absent key
* `ExtentIndex.pinned_run_iff` — the exact condition, over every run
-/

namespace Elide

open List DeltaOption AList Refcount.Exact Option Refcount Run

namespace ExtentIndex

/-- The operations of the index that touch slots, records or counts. -/
inductive Op where
  | registerEntryIfAbsent (entry : SegmentEntry) (rawIdx : ℕ) (ctx : SegmentRegistrationCtx)
  | registerEntryConsumingInputs (entry : SegmentEntry) (rawIdx : ℕ) (ctx : SegmentRegistrationCtx)
      (inputs : Finset Ulid)
  | insert (hash : Hash) (location : ExtentLocation)
  | insertIfAbsent (hash : Hash) (location : ExtentLocation)
  | removeOwnerAt (hash : Hash) (segment : Ulid)
  | removeInputOwned (input : Ulid) (owned : List Hash) (carried : Finset Hash)
  | purgeSegmentDeltaSources (segment : Ulid)

variable (x : ExtentIndex)

/-- A registration that fails changes nothing. -/
def orKeep : Except RegisterError ExtentIndex → ExtentIndex
  | .ok y => y
  | .error _ => x

/-- One operation; a failed one leaves the index as it was. -/
def apply : Op → ExtentIndex
  | .registerEntryIfAbsent e i ctx => x.orKeep (x.registerEntryIfAbsent e i ctx)
  | .registerEntryConsumingInputs e i ctx inputs =>
    x.orKeep (x.registerEntryConsumingInputs e i ctx inputs)
  | .insert h loc => x.insert h loc
  | .insertIfAbsent h loc => (x.insertIfAbsent h loc).1
  | .removeOwnerAt h s => (x.removeOwnerAt h s).1
  | .removeInputOwned s owned carried => (x.removeInputOwned s owned carried).1
  | .purgeSegmentDeltaSources s => x.purgeSegmentDeltaSources s

/-- A segment is purged only after the slots it owned were removed or re-registered. -/
def Legal : Op → Prop
  | .purgeSegmentDeltaSources s => ∀ h loc, x.lookupDelta h = some loc → loc.segmentId ≠ s
  | _ => True

/-- Every source a held Delta location can be rebuilt from is named by a record. -/
def Pinned : Prop :=
  ∀ h loc, x.lookupDelta h = some loc → ∀ o ∈ loc.options, x.isNamedDeltaSource o.sourceHash = true

/-- The maintained counts are those of the records. -/
def SourcesExact : Prop :=
  Refcount.Exact x.deltaSourceCounts x.namedDeltaSources

/-- The sources recorded for one encoding. -/
def sourceRecord (segment : Ulid) (hash : Hash) : Option (List Hash) :=
  (x.deltaSources.lookup segment).bind fun perHash => perHash.lookup hash

variable {x : ExtentIndex}

theorem SourcesExact.isNamed_iff (hx : x.SourcesExact) {h : Hash} :
    x.isNamedDeltaSource h = true ↔ h ∈ x.namedDeltaSources :=
  isSome_iff hx

/-! ## Steps that only release slots -/

/-- The records and counts are untouched and no Delta slot is new. -/
structure Releases (x y : ExtentIndex) : Prop where
  sources : y.deltaSources = x.deltaSources
  counts : y.deltaSourceCounts = x.deltaSourceCounts
  slots : ∀ h loc, y.lookupDelta h = some loc → x.lookupDelta h = some loc

theorem Releases.refl (x : ExtentIndex) : x.Releases x := ⟨rfl, rfl, fun _ _ h => h⟩

theorem Releases.trans {y z : ExtentIndex} (h : x.Releases y) (h' : y.Releases z) : x.Releases z :=
  ⟨h'.sources.trans h.sources, h'.counts.trans h.counts, fun k loc hk =>
    h.slots k loc (h'.slots k loc hk)⟩

theorem lookup_of_lookup_erase {s : AList fun _ : Hash => DeltaLocation} {h k : Hash}
    {loc : DeltaLocation} (hk : (s.erase h).lookup k = some loc) : s.lookup k = some loc := by
  rw [lookup_erase_ite] at hk
  split_ifs at hk
  exact hk

variable (x)

theorem releases_insert (h : Hash) (loc : ExtentLocation) : x.Releases (x.insert h loc) :=
  ⟨rfl, rfl, fun _ _ hk => lookup_of_lookup_erase hk⟩

theorem releases_insertIfAbsent (h : Hash) (loc : ExtentLocation) :
    x.Releases (x.insertIfAbsent h loc).1 := by
  rw [insertIfAbsent]
  cases x.inner.lookup h <;> exact ⟨rfl, rfl, fun _ _ hk => hk⟩

variable (s : Ulid)

theorem releases_insertJournalIfAbsent (h : Hash)
    (loc : ExtentLocation) : x.Releases (x.insertJournalIfAbsent s h loc).1 := by
  simp only [insertJournalIfAbsent]
  cases ((x.journal.lookup s).getD ∅).lookup h <;> exact ⟨rfl, rfl, fun _ _ hk => hk⟩

theorem releases_removeOwnerAt (h : Hash) (s : Ulid) : x.Releases (x.removeOwnerAt h s).1 := by
  simp only [removeOwnerAt]
  refine Releases.trans (y := if (x.inner.lookup h).any fun loc => decide (loc.segmentId = s) then
    { x with inner := x.inner.erase h } else x) ?_ ?_
  · split_ifs <;> exact ⟨rfl, rfl, fun _ _ hk => hk⟩
  · split_ifs
    all_goals first
      | exact Releases.refl _
      | exact ⟨rfl, rfl, fun _ _ hk => lookup_of_lookup_erase hk⟩

theorem releases_removeInputOwned (owned : List Hash)
    (carried : Finset Hash) : x.Releases (x.removeInputOwned s owned carried).1 := by
  induction owned using List.reverseRecOn with
  | nil => exact Releases.refl x
  | append_singleton owned k ih =>
    rw [removeInputOwned, foldl_append, foldl_cons]
    dsimp only
    by_cases hk : k ∈ carried
    · rw [if_pos hk]
      exact ih
    · rw [if_neg hk]
      exact ih.trans (releases_removeOwnerAt _ k s)

theorem releases_registerBody (e : SegmentEntry) (i : ℕ)
    (ctx : SegmentRegistrationCtx) (a : Admission) : x.Releases (x.registerBody e i ctx a) := by
  rw [registerBody]
  cases inlineBytes e ctx.inline with
  | none => exact Releases.refl x
  | some bytes =>
    split_ifs
    · exact releases_insertJournalIfAbsent x _ _ _
    · cases a with
      | ifAbsent => exact releases_insertIfAbsent x _ _
      | consumingInputs inputs =>
        cases x.inner.lookup e.hash with
        | none => exact releases_insert x _ _
        | some owner =>
          dsimp only
          split_ifs
          · exact releases_insert x _ _
          · exact Releases.refl x

variable {x} {y : ExtentIndex}

theorem Releases.sourcesExact (h : x.Releases y) (hx : x.SourcesExact) :
    y.SourcesExact := by
  rw [SourcesExact, namedDeltaSources, h.sources, h.counts]
  exact hx

/-! ## Recording and purging -/

theorem deltaSources_recordSources (x : ExtentIndex) (s : Ulid) (h : Hash) (sources : List Hash) :
    (x.recordSources s h sources).deltaSources =
      x.deltaSources.insert s (((x.deltaSources.lookup s).getD ∅).insert h sources) := by
  simp only [recordSources, bumpSourceCounts]
  cases ((x.deltaSources.lookup s).getD ∅).lookup h <;> rfl

/-- Recording an encoding puts its sources in and takes the replaced ones out. -/
theorem named_recordSources_perm (x : ExtentIndex) (s : Ulid) (h : Hash) (sources : List Hash) :
    (sources ++ x.namedDeltaSources).Perm
      ((x.sourceRecord s h).getD [] ++ (x.recordSources s h sources).namedDeltaSources) := by
  -- pull the segment out of the outer map and the hash out of the inner one
  have houter := flatMap_entries_perm x.deltaSources s fun perHash =>
    perHash.2.entries.flatMap fun sources => sources.2
  have hinner := flatMap_entries_perm ((x.deltaSources.lookup s).getD ∅) h fun sources => sources.2
  have hrecord : (((x.deltaSources.lookup s).getD ∅).lookup h).elim [] id =
      (x.sourceRecord s h).getD [] := by
    rw [sourceRecord]
    cases x.deltaSources.lookup s with
    | none => simp
    | some perHash => cases hl : perHash.lookup h <;> simp [hl]
  have hseg : ((x.deltaSources.lookup s).elim [] fun perHash =>
      perHash.entries.flatMap fun sources => sources.2) =
      ((x.deltaSources.lookup s).getD ∅).entries.flatMap fun sources => sources.2 := by
    cases x.deltaSources.lookup s <;> rfl
  rw [namedDeltaSources, namedDeltaSources, deltaSources_recordSources, flatMap_entries_insert,
    flatMap_entries_insert, ← hrecord]
  rw [hseg] at houter
  refine (houter.append_left sources).trans ?_
  refine ((hinner.append_right _).append_left sources).trans ?_
  simp only [append_assoc]
  exact (perm_append_comm_assoc _ _ _)

theorem SourcesExact.recordSources (hx : x.SourcesExact) (s : Ulid) (h : Hash) (sources : List Hash) :
    (x.recordSources s h sources).SourcesExact := by
  have hperm := named_recordSources_perm x s h sources
  have hexact := (foldl_incref hx sources).perm hperm
  have hcounts : (x.recordSources s h sources).deltaSourceCounts =
      ((x.sourceRecord s h).getD []).foldl decref
        (sources.foldl incref x.deltaSourceCounts) := by
    have hrecord : ((x.deltaSources.lookup s).getD ∅).lookup h = x.sourceRecord s h := by
      rw [sourceRecord]
      cases x.deltaSources.lookup s <;> simp
    simp only [ExtentIndex.recordSources, bumpSourceCounts, hrecord]
    cases x.sourceRecord s h <;> rfl
  rw [SourcesExact, hcounts]
  exact hexact.foldl_decref

variable (x)

theorem recordSources_lookupDelta (h : Hash) (sources : List Hash)
    (k : Hash) : (x.recordSources s h sources).lookupDelta k = x.lookupDelta k := by
  simp only [recordSources, bumpSourceCounts]
  cases ((x.deltaSources.lookup s).getD ∅).lookup h <;> rfl

/-- Dropping counts for a list of records changes the counts only. -/
theorem foldl_dropSourceCounts (rs : List (Σ _ : Hash, List Hash)) :
    rs.foldl (fun x sources => x.dropSourceCounts sources.2) x =
      { x with deltaSourceCounts :=
          (rs.flatMap fun sources => sources.2).foldl decref x.deltaSourceCounts } := by
  induction rs generalizing x with
  | nil => rfl
  | cons r rs ih =>
    rw [foldl_cons, ih, flatMap_cons, foldl_append]
    rfl

/-- The sources the records of one segment name. -/
def segmentSources : List Hash :=
  (x.deltaSources.lookup s).elim [] fun perHash => perHash.entries.flatMap fun sources => sources.2

theorem purge_eq : x.purgeSegmentDeltaSources s =
      { x with
        deltaSources := x.deltaSources.erase s
        deltaSourceCounts := (x.segmentSources s).foldl decref x.deltaSourceCounts } := by
  rw [purgeSegmentDeltaSources, segmentSources]
  cases hl : x.deltaSources.lookup s with
  | some perHash => exact foldl_dropSourceCounts _ _
  | none =>
    have herase : x.deltaSources.erase s = x.deltaSources := by
      ext1
      exact kerase_of_notMem_keys (lookup_eq_none.mp hl)
    rw [herase]
    rfl

theorem named_purge_perm : x.namedDeltaSources.Perm
      (x.segmentSources s ++ (x.purgeSegmentDeltaSources s).namedDeltaSources) := by
  rw [purge_eq]
  exact flatMap_entries_perm x.deltaSources s fun perHash =>
    perHash.2.entries.flatMap fun sources => sources.2

variable {x}

theorem SourcesExact.purge (hx : x.SourcesExact) (s : Ulid) :
    (x.purgeSegmentDeltaSources s).SourcesExact := by
  have hexact := perm hx (named_purge_perm x s)
  have hcounts : (x.purgeSegmentDeltaSources s).deltaSourceCounts =
      (x.segmentSources s).foldl decref x.deltaSourceCounts := by rw [purge_eq]
  rw [SourcesExact, hcounts]
  exact hexact.foldl_decref

/-! ## One registration of a Delta entry -/

/-- The Delta entry an operation registers, with the segment and the admission policy. A Delta
with no delta body source is refused. -/
def Op.delta? : Op → Option (SegmentEntry × Ulid × Admission)
  | .registerEntryIfAbsent e _ ctx =>
    if e.kind.isDelta ∧ ctx.deltaBodySource.isSome then some (e, ctx.segmentId, .ifAbsent) else none
  | .registerEntryConsumingInputs e _ ctx inputs =>
    if e.kind.isDelta ∧ ctx.deltaBodySource.isSome then
      some (e, ctx.segmentId, .consumingInputs inputs)
    else none
  | _ => none

/-- What registering a Delta entry does: its sources are recorded, if it has any, and the slot is
taken when the policy admits it. -/
structure RegistersDelta (x y : ExtentIndex) (e : SegmentEntry) (s : Ulid) (a : Admission) :
    Prop where
  /-- With options, the record of `(s, e.hash)` is replaced. -/
  recorded : e.deltaOptions ≠ [] → y.deltaSources = (x.recordSources s e.hash
    (e.deltaOptions.map sourceHash)).deltaSources ∧ y.deltaSourceCounts =
    (x.recordSources s e.hash (e.deltaOptions.map sourceHash)).deltaSourceCounts
  /-- Without options, records and counts stay. -/
  bare : e.deltaOptions = [] → y.deltaSources = x.deltaSources ∧
    y.deltaSourceCounts = x.deltaSourceCounts
  /-- Every slot but that of `e.hash` stays. -/
  others : ∀ h, h ≠ e.hash → y.lookupDelta h = x.lookupDelta h
  /-- A refused encoding leaves the slot of `e.hash` too. -/
  refused : x.admitsDelta e.hash a = false → y.lookupDelta e.hash = x.lookupDelta e.hash
  /-- An admitted one takes it. -/
  taken : x.admitsDelta e.hash a = true → ∃ i src, y.lookupDelta e.hash =
    some ⟨s, i, src, e.deltaOptions⟩

theorem registerDelta_spec (x : ExtentIndex) (e : SegmentEntry) (i : ℕ) (s : Ulid)
    (src : DeltaBodySource) (a : Admission) :
    x.RegistersDelta (x.registerDelta e i s src a) e s a := by
  have hslot : ∀ h, (if e.deltaOptions.isEmpty then x
      else x.recordSources s e.hash (e.deltaOptions.map sourceHash)).lookupDelta h =
        x.lookupDelta h := by
    intro h
    split_ifs
    · rfl
    · exact recordSources_lookupDelta x s e.hash _ h
  refine ⟨fun hne => ?_, fun hnil => ?_, fun h hh => ?_, fun hno => ?_, fun hyes => ?_⟩
  · have hempty : e.deltaOptions.isEmpty = false := by simpa using hne
    simp only [registerDelta, hempty, Bool.false_eq_true, if_false]
    split_ifs <;> exact ⟨rfl, rfl⟩
  · simp only [registerDelta, hnil, isEmpty_nil]
    split_ifs <;> exact ⟨rfl, rfl⟩
  · rw [registerDelta, ← hslot h]
    by_cases hadm : x.admitsDelta e.hash a = true
    · rw [if_pos hadm]
      exact lookup_insert_ne hh
    · rw [if_neg hadm]
  · rw [registerDelta, if_neg (by simp [hno]), hslot]
  · refine ⟨i, src, ?_⟩
    rw [registerDelta, if_pos hyes]
    exact lookup_insert _

/-- **What a step can do**: register a Delta entry, purge a segment's records, or release slots. -/
theorem apply_cases (x : ExtentIndex) (op : Op) :
    (∃ e s a, op.delta? = some (e, s, a) ∧ x.RegistersDelta (x.apply op) e s a) ∨
      (∃ s, op = .purgeSegmentDeltaSources s) ∨
      (op.delta? = none ∧ (∀ s, op ≠ .purgeSegmentDeltaSources s) ∧ x.Releases (x.apply op)) := by
  have hreg : ∀ e i (ctx : SegmentRegistrationCtx) a, (e.kind.isDelta ∧ ctx.deltaBodySource.isSome →
        x.RegistersDelta (x.orKeep (x.registerEntry e i ctx a)) e ctx.segmentId a) ∧
      (¬ (e.kind.isDelta ∧ ctx.deltaBodySource.isSome) →
        x.Releases (x.orKeep (x.registerEntry e i ctx a))) := by
    intro e i ctx a
    rw [registerEntry]
    cases hk : e.kind with
    | delta | canonicalDelta =>
      cases hsrc : ctx.deltaBodySource with
      | none => exact ⟨fun h => absurd h.2 (by simp), fun _ => Releases.refl x⟩
      | some src =>
        exact ⟨fun _ => registerDelta_spec x e i ctx.segmentId src a, fun h => absurd ⟨rfl, rfl⟩ h⟩
    | dedupRef | zero => exact ⟨fun h => absurd h.1 (by decide), fun _ => Releases.refl x⟩
    | data | inline | canonicalData | canonicalInline =>
      exact ⟨fun h => absurd h.1 (by decide), fun _ => releases_registerBody x e i ctx a⟩
  cases op with
  | registerEntryIfAbsent e i ctx =>
    by_cases hd : e.kind.isDelta ∧ ctx.deltaBodySource.isSome
    · exact .inl ⟨e, ctx.segmentId, .ifAbsent, by simp [Op.delta?, hd], (hreg e i ctx _).1 hd⟩
    · exact .inr (.inr ⟨if_neg hd, by simp, (hreg e i ctx _).2 hd⟩)
  | registerEntryConsumingInputs e i ctx inputs =>
    by_cases hd : e.kind.isDelta ∧ ctx.deltaBodySource.isSome
    · exact .inl ⟨e, ctx.segmentId, .consumingInputs inputs, by simp [Op.delta?, hd],
        (hreg e i ctx _).1 hd⟩
    · exact .inr (.inr ⟨if_neg hd, by simp, (hreg e i ctx _).2 hd⟩)
  | insert h loc => exact .inr (.inr ⟨rfl, by simp, releases_insert x h loc⟩)
  | insertIfAbsent h loc => exact .inr (.inr ⟨rfl, by simp, releases_insertIfAbsent x h loc⟩)
  | removeOwnerAt h s => exact .inr (.inr ⟨rfl, by simp, releases_removeOwnerAt x h s⟩)
  | removeInputOwned s owned carried =>
    exact .inr (.inr ⟨rfl, by simp, releases_removeInputOwned x s owned carried⟩)
  | purgeSegmentDeltaSources s => exact .inr (.inl ⟨s, rfl⟩)

variable {e : SegmentEntry} {s : Ulid} {a : Admission}

theorem RegistersDelta.sourcesExact (h : x.RegistersDelta y e s a)
    (hx : x.SourcesExact) : y.SourcesExact := by
  rw [SourcesExact, namedDeltaSources]
  by_cases hnil : e.deltaOptions = []
  · rw [(h.bare hnil).1, (h.bare hnil).2]
    exact hx
  · rw [(h.recorded hnil).1, (h.recorded hnil).2]
    exact hx.recordSources s e.hash _

theorem SourcesExact.apply (hx : x.SourcesExact) (op : Op) : (x.apply op).SourcesExact := by
  rcases apply_cases x op with ⟨e, s, a, -, h⟩ | ⟨s, rfl⟩ | ⟨-, -, h⟩
  · exact h.sourcesExact hx
  · exact hx.purge s
  · exact h.sourcesExact hx

theorem sourcesExact_new : new.SourcesExact := exact_empty

/-- The maintained counts are those of the records, whatever the run. -/
theorem sourcesExact_run (ops : List Op) : (ops.foldl apply new).SourcesExact := by
  induction ops using List.reverseRecOn with
  | nil => exact sourcesExact_new
  | append_singleton ops op ih =>
    rw [foldl_append]
    exact SourcesExact.apply ih op

/-! ## The exact condition -/

/-- The sources of the records a step removes: those of a replaced record, or of a purged
segment. -/
def droppedSources (x : ExtentIndex) (op : Op) : List Hash :=
  match op with
  | .purgeSegmentDeltaSources s => x.segmentSources s
  | op =>
    match op.delta? with
    | some (e, s, _) => if e.deltaOptions = [] then [] else (x.sourceRecord s e.hash).getD []
    | none => []

theorem droppedSources_of_delta {op : Op} (hop : op.delta? = some (e, s, a))
    (hne : e.deltaOptions ≠ []) : x.droppedSources op = (x.sourceRecord s e.hash).getD [] := by
  rw [droppedSources]
  · rw [hop]
    exact if_neg hne
  · rintro s rfl
    simp [Op.delta?] at hop

/-! ### Every update of the index -/

/-- The updates of the index, those that touch no source record among them. -/
inductive Update where
  | op (op : Op)
  | insertDeltaIfAbsent (h : Hash) (loc : DeltaLocation)
  | replaceIfMatches (h : Hash) (segment : Ulid) (offset : ℕ) (loc : ExtentLocation)
  | rekeyOwner (h : Hash) (segment : Ulid) (offset : ℕ) (newSegment : Ulid)
  | removeIfMatches (h : Hash) (segment : Ulid) (offset : ℕ)

/-- One operation, of these or the others the index has. -/
def update (x : ExtentIndex) : Update → ExtentIndex
  | .op op => x.apply op
  | .insertDeltaIfAbsent h loc => (x.insertDeltaIfAbsent h loc).1
  | .replaceIfMatches h segment offset loc => (x.replaceIfMatches h segment offset loc).1
  | .rekeyOwner h segment offset newSegment => (x.rekeyOwner h segment offset newSegment).1
  | .removeIfMatches h segment offset => (x.removeIfMatches h segment offset).1

theorem SourcesExact.update (hx : x.SourcesExact) (u : Update) : (x.update u).SourcesExact := by
  have hkeep : ∀ {y : ExtentIndex}, y.deltaSources = x.deltaSources →
      y.deltaSourceCounts = x.deltaSourceCounts → y.SourcesExact := by
    intro y hs hc
    rwa [SourcesExact, namedDeltaSources, hs, hc]
  cases u with
  | op op => exact hx.apply op
  | insertDeltaIfAbsent h loc =>
    simp only [ExtentIndex.update, ExtentIndex.insertDeltaIfAbsent]
    split_ifs <;> exact hkeep rfl rfl
  | replaceIfMatches | rekeyOwner | removeIfMatches =>
    simp only [ExtentIndex.update, ExtentIndex.replaceIfMatches, ExtentIndex.rekeyOwner,
      ExtentIndex.removeIfMatches]
    split
    · split_ifs <;> exact hkeep rfl rfl
    · exact hkeep rfl rfl

/-- The sources a step records. -/
def Op.addedSources (op : Op) : List Hash :=
  op.delta?.elim [] fun d => d.1.deltaOptions.map sourceHash

/-- The decrements of an update, which follow its increments, meet no absent key. -/
def DropsPresent (x : ExtentIndex) : Update → Prop
  | .op op => Refcount.Drops (op.addedSources.foldl incref x.deltaSourceCounts)
      (x.droppedSources op)
  | _ => True

theorem SourcesExact.dropsPresent (hx : x.SourcesExact) (u : Update) : x.DropsPresent u := by
  cases u with
  | op op =>
    rcases apply_cases x op with ⟨e, s, a, hop, -⟩ | ⟨s, rfl⟩ | ⟨hop, hpurge, -⟩
    · by_cases hnil : e.deltaOptions = []
      · rw [DropsPresent, droppedSources, hop]
        · simp only [hnil]
          trivial
        · rintro s rfl
          simp [Op.delta?] at hop
      · rw [DropsPresent, droppedSources_of_delta hop hnil]
        exact ((foldl_incref hx _).perm (named_recordSources_perm x s e.hash _)).drops
    · exact (perm hx (named_purge_perm x s)).drops
    · rw [DropsPresent, droppedSources, hop]
      · trivial
      · exact hpurge
  | insertDeltaIfAbsent | replaceIfMatches | rekeyOwner | removeIfMatches => trivial

/-- **The source counts are those of the records.** In every state of every run of updates, a hash
is counted exactly as often as the records name it and has no count when none does, so a `u32` holds
the counts while it holds the number of sources in the records; membership in the counts is
membership in the named sources, and no update drops a count that is not there. -/
theorem sources_counted (us : List Update) :
    Run.Always update (fun x => ∀ h, (∀ n, x.deltaSourceCounts.lookup h = some n ↔
      1 ≤ n ∧ n = x.namedDeltaSources.count h) ∧
      (x.namedDeltaSources.length < 2 ^ 32 → ∀ n ∈ x.deltaSourceCounts.lookup h, n < 2 ^ 32) ∧
      (x.isNamedDeltaSource h = true ↔ h ∈ x.namedDeltaSources)) new us ∧
    Run.Each update DropsPresent new us := by
  have hexact : Run.Always update SourcesExact new us :=
    always_of_each (C := fun _ _ => True) (fun _ u hx _ => hx.update u) sourcesExact_new
      (each_of_forall (fun _ _ => trivial) new us)
  refine ⟨hexact.mono fun x hx h => ?_, hexact.each fun _ u hx => hx.dropsPresent u⟩
  suffices hcount : ∀ n, x.deltaSourceCounts.lookup h = some n ↔
      1 ≤ n ∧ n = x.namedDeltaSources.count h from
    ⟨hcount, fun hlen n hn => ((hcount n).mp hn).2 ▸ count_le_length.trans_lt hlen, hx.isNamed_iff⟩
  intro n
  rw [hx h]
  split_ifs with hmem
  · have hpos := count_pos_iff.mpr hmem
    rw [some.injEq]
    omega
  · have hzero := count_eq_zero_of_not_mem hmem
    refine iff_of_false nofun fun hn => ?_
    omega

/-! ### Records taken away

A condition on the state before the step: which records it takes away, which slots it leaves as they
are, and what the records that stay name. -/

/-- The step takes away the record of a segment and hash: it purges the segment, or registers an
encoding of the hash in it. -/
def Op.Drops (op : Op) (s : Ulid) (h : Hash) : Prop :=
  op = .purgeSegmentDeltaSources s ∨
    ∃ e a, op.delta? = some (e, s, a) ∧ e.deltaOptions ≠ [] ∧ h = e.hash

/-- The step puts an encoding of its own into the slot of a hash. -/
def Takes (x : ExtentIndex) (op : Op) (h : Hash) : Prop :=
  ∃ e s a, op.delta? = some (e, s, a) ∧ h = e.hash ∧ x.admitsDelta h a = true

/-- A source in a record that a step takes away, which a slot not taken by the step names, is a source
of the step's own encoding too, or another record that stays has it. -/
def KeepsHeldSources (x : ExtentIndex) (op : Op) : Prop :=
  ∀ s h, op.Drops s h → ∀ source ∈ (x.sourceRecord s h).getD [],
    ∀ h' loc, x.lookupDelta h' = some loc → ¬ x.Takes op h' →
      source ∈ loc.options.map sourceHash → source ∈ op.addedSources ∨
        ∃ s' h', ¬ op.Drops s' h' ∧ source ∈ (x.sourceRecord s' h').getD []

theorem mem_named_of_sourceRecord {h source : Hash} (hs : source ∈ (x.sourceRecord s h).getD []) :
    source ∈ x.namedDeltaSources := by
  rw [sourceRecord] at hs
  cases hseg : x.deltaSources.lookup s with
  | none => simp [hseg] at hs
  | some perHash =>
    cases hrec : perHash.lookup h with
    | none => simp [hseg, hrec] at hs
    | some sources =>
      simp only [hseg, hrec, bind_some] at hs
      exact mem_flatMap.mpr ⟨⟨s, perHash⟩, mem_lookup_iff.mp hseg,
        mem_flatMap.mpr ⟨⟨h, sources⟩, mem_lookup_iff.mp hrec, hs⟩⟩

theorem mem_named_iff {source : Hash} :
    source ∈ x.namedDeltaSources ↔ ∃ s h, source ∈ (x.sourceRecord s h).getD [] := by
  constructor
  · intro hs
    obtain ⟨⟨s, perHash⟩, hseg, hs⟩ := mem_flatMap.mp hs
    obtain ⟨⟨h, sources⟩, hrec, hs⟩ := mem_flatMap.mp hs
    refine ⟨s, h, ?_⟩
    rw [sourceRecord, mem_lookup_iff.mpr hseg, bind_some, mem_lookup_iff.mpr hrec]
    exact hs
  · rintro ⟨s, h, hs⟩
    exact mem_named_of_sourceRecord hs

theorem sourceRecord_recordSources (x : ExtentIndex) (s : Ulid) (h : Hash) (sources : List Hash)
    (s' : Ulid) (h' : Hash) :
    (x.recordSources s h sources).sourceRecord s' h' =
      if s' = s ∧ h' = h then some sources else x.sourceRecord s' h' := by
  rw [sourceRecord, sourceRecord, deltaSources_recordSources, lookup_insert_ite]
  by_cases hs : s' = s
  · subst hs
    rw [if_pos rfl, bind_some, lookup_insert_ite]
    cases x.deltaSources.lookup s' <;> simp
  · rw [if_neg hs, if_neg (by tauto)]

/-- The records after a step: those it leaves, and that of its own encoding. -/
theorem sourceRecord_apply (x : ExtentIndex) (op : Op) (s : Ulid) (h : Hash) :
    (¬ op.Drops s h → (x.apply op).sourceRecord s h = x.sourceRecord s h) ∧
      (op.Drops s h → ((x.apply op).sourceRecord s h).getD [] = op.addedSources) := by
  rcases apply_cases x op with ⟨e, s', a, hop, hr⟩ | ⟨s', rfl⟩ | ⟨hop, hpurge, hr⟩
  · have hdrops : op.Drops s h ↔ e.deltaOptions ≠ [] ∧ s = s' ∧ h = e.hash := by
      constructor
      · rintro (rfl | ⟨e', a', hop', hne, rfl⟩)
        · cases hop
        · cases hop.symm.trans hop'
          exact ⟨hne, rfl, rfl⟩
      · rintro ⟨hne, rfl, rfl⟩
        exact .inr ⟨e, a, hop, hne, rfl⟩
    have hadded : op.addedSources = e.deltaOptions.map sourceHash := by
      rw [Op.addedSources, hop]
      rfl
    rw [hdrops, hadded]
    by_cases hnil : e.deltaOptions = []
    · rw [sourceRecord, (hr.bare hnil).1]
      exact ⟨fun _ => rfl, fun hd => absurd hnil hd.1⟩
    · rw [sourceRecord, (hr.recorded hnil).1, ← sourceRecord, sourceRecord_recordSources]
      exact ⟨fun hd => if_neg fun hs => hd ⟨hnil, hs⟩, fun hd => by rw [if_pos hd.2]; rfl⟩
  · have hdrops : Op.Drops (.purgeSegmentDeltaSources s') s h ↔ s' = s := by
      simp [Op.Drops, Op.delta?]
    rw [hdrops, apply, purge_eq, sourceRecord, sourceRecord, lookup_erase_ite]
    refine ⟨fun hs => by rw [if_neg (Ne.symm hs)], fun hs => ?_⟩
    rw [if_pos hs.symm]
    rfl
  · have hdrops : ¬ op.Drops s h := by
      rintro (hop' | ⟨e, a, hop', -⟩)
      · exact hpurge s hop'
      · cases hop.symm.trans hop'
    exact ⟨fun _ => by rw [sourceRecord, hr.sources, sourceRecord], fun hd => absurd hd hdrops⟩

theorem addedSources_drops {op : Op} {source : Hash} (hs : source ∈ op.addedSources) :
    ∃ s h, op.Drops s h := by
  rw [Op.addedSources] at hs
  cases hop : op.delta? with
  | none => simp [hop] at hs
  | some d =>
    obtain ⟨e, s, a⟩ := d
    rw [hop] at hs
    exact ⟨s, e.hash, .inr ⟨e, a, hop, fun hnil => by simp [hnil] at hs, rfl⟩⟩

/-- The sources named after a step. -/
theorem mem_named_apply_iff (x : ExtentIndex) (op : Op) {source : Hash} :
    source ∈ (x.apply op).namedDeltaSources ↔ source ∈ op.addedSources ∨
      ∃ s h, ¬ op.Drops s h ∧ source ∈ (x.sourceRecord s h).getD [] := by
  rw [mem_named_iff]
  constructor
  · rintro ⟨s, h, hs⟩
    by_cases hd : op.Drops s h
    · exact .inl ((sourceRecord_apply x op s h).2 hd ▸ hs)
    · exact .inr ⟨s, h, hd, (sourceRecord_apply x op s h).1 hd ▸ hs⟩
  · rintro (hs | ⟨s, h, hd, hs⟩)
    · obtain ⟨s, h, hd⟩ := addedSources_drops hs
      exact ⟨s, h, (sourceRecord_apply x op s h).2 hd ▸ hs⟩
    · exact ⟨s, h, (sourceRecord_apply x op s h).1 hd ▸ hs⟩

/-- A slot held after a step was held before it and not taken, or is the step's own encoding. -/
theorem slot_cases (x : ExtentIndex) (op : Op) {h : Hash} {loc : DeltaLocation}
    (hl : (x.apply op).lookupDelta h = some loc) :
    (x.lookupDelta h = some loc ∧ ¬ x.Takes op h) ∨
      ∀ o ∈ loc.options, o.sourceHash ∈ op.addedSources := by
  rcases apply_cases x op with ⟨e, s, a, hop, hr⟩ | ⟨s, rfl⟩ | ⟨hop, -, hr⟩
  · by_cases ht : h = e.hash ∧ x.admitsDelta h a = true
    · obtain ⟨rfl, hadm⟩ := ht
      obtain ⟨i, src, htaken⟩ := hr.taken hadm
      obtain rfl := mem_unique htaken hl
      right
      rw [Op.addedSources, hop]
      exact fun o ho => mem_map_of_mem ho
    · refine .inl ⟨?_, ?_⟩
      · by_cases hh : h = e.hash
        · subst hh
          exact (hr.refused (by simpa using ht)).symm.trans hl
        · exact (hr.others h hh).symm.trans hl
      · rintro ⟨e', s', a', hop', heq, hadm⟩
        cases hop.symm.trans hop'
        exact ht ⟨heq, hadm⟩
  · rw [apply, purge_eq] at hl
    exact .inl ⟨hl, by simp [Takes, Op.delta?]⟩
  · exact .inl ⟨hr.slots h loc hl, by simp [Takes, hop]⟩

/-- A step that takes records away leaves every slot that it does not take. -/
theorem slot_of_drops {op : Op} {s : Ulid} {h h' : Hash} {loc : DeltaLocation}
    (hd : op.Drops s h) (hl : x.lookupDelta h' = some loc) (ht : ¬ x.Takes op h') :
    (x.apply op).lookupDelta h' = some loc := by
  rcases apply_cases x op with ⟨e, s', a, hop, hr⟩ | ⟨s', rfl⟩ | ⟨hop, hpurge, -⟩
  · by_cases hh : h' = e.hash
    · subst hh
      have hno : x.admitsDelta e.hash a = false :=
        Bool.eq_false_of_not_eq_true fun hadm => ht ⟨e, s', a, hop, rfl, hadm⟩
      exact (hr.refused hno).trans hl
    · exact (hr.others h' hh).trans hl
  · rw [apply, purge_eq]
    exact hl
  · rcases hd with hop' | ⟨e, a, hop', -⟩
    · exact absurd hop' (hpurge s)
    · cases hop.symm.trans hop'

/-- One step keeps the sources pinned exactly when it meets the condition. -/
theorem pinned_apply_iff (hx : x.SourcesExact) (hp : x.Pinned) (op : Op) :
    (x.apply op).Pinned ↔ x.KeepsHeldSources op := by
  have hx' := hx.apply op
  constructor
  · intro hp' s h hd source _ h' loc hl ht hsource
    obtain ⟨o, ho, rfl⟩ := mem_map.mp hsource
    exact (mem_named_apply_iff x op).mp
      (hx'.isNamed_iff.mp (hp' h' loc (slot_of_drops hd hl ht) o ho))
  · intro hkeep h loc hl o ho
    rw [hx'.isNamed_iff, mem_named_apply_iff]
    rcases slot_cases x op hl with ⟨hold, ht⟩ | hnew
    · obtain ⟨s, h'', hs⟩ := mem_named_iff.mp (hx.isNamed_iff.mp (hp h loc hold o ho))
      by_cases hd : op.Drops s h''
      · exact hkeep s h'' hd _ hs h loc hold ht (mem_map_of_mem ho)
      · exact .inr ⟨s, h'', hd, hs⟩
    · exact .inl (hnew o ho)

/-- **Delta sources stay pinned, exactly when.** Along any run from the empty index, every source
of every held Delta location is named in every state if and only if every step that replaces or
purges a record meets the condition on the records and slots before it. -/
theorem pinned_run_iff (ops : List Op) :
    Run.Always apply Pinned new ops ↔ Run.Each apply KeepsHeldSources new ops :=
  always_iff_each (I := SourcesExact) (L := fun _ _ => True)
    (fun _ op hx _ => hx.apply op) (fun _ op hx _ hp => pinned_apply_iff hx hp op)
    sourcesExact_new (fun h loc hl => by simp [new, lookupDelta] at hl)
    (each_of_forall (fun _ _ => trivial) new ops)

/-- One segment carries two encodings of hash 1, against sources 2 and 3. The slot keeps the
first, the record keeps the second, and source 2 of the location reads use is named by nothing. -/
theorem second_encoding_unpins_source :
    let ctx : SegmentRegistrationCtx := ⟨10, 0, .local, some .cached, .entryInline⟩
    let encoding (source : Hash) : SegmentEntry :=
      { hash := 1, startLba := 0, lbaLength := 1, kind := .delta,
        deltaOptions := [⟨source, 0, 8, 0⟩] }
    let ops : List Op :=
      [.registerEntryIfAbsent (encoding 2) 0 ctx, .registerEntryIfAbsent (encoding 3) 1 ctx]
    Run.Each apply Legal new ops ∧
      ((ops.foldl apply new).lookupDelta 1).map DeltaLocation.options = some [⟨2, 0, 8, 0⟩] ∧
      (ops.foldl apply new).isNamedDeltaSource 2 = false ∧ ¬ Run.Always apply Pinned new ops := by
  refine ⟨⟨trivial, trivial, trivial⟩, by decide, by decide, fun hpin => ?_⟩
  have hlast := hpin.last 1 ⟨10, 0, .cached, [⟨2, 0, 8, 0⟩]⟩ (by decide) ⟨2, 0, 8, 0⟩ (by simp)
  exact absurd hlast (by decide)

end ExtentIndex

end Elide
