import Elide.Volume.Formation

/-!
# Does formation leave a Delta of a Delta?

A Delta is read against a body, so its source has to keep one. The two delta tiers choose sources
independently of each other and of the batch they convert. The same-LBA tier's sources are reserved:
no entry that carries one is converted. The resemblance tier reserves nothing. Its candidates come
from a sketch map that is never pruned, and the index it reads them through already maps the batch's
own hashes to the open WAL, so a candidate may be the content of another entry of the batch, and that
entry may be converted too.

`Formation.SourcesHold` says on the batch, the sketch map and the index when this does not happen.

## Main results

* `Formation.no_delta_of_delta_iff`: no source of a formed Delta is itself a Delta, exactly if
  `SourcesHold`.
-/

namespace Elide

open List SegmentEntry DeltaOption ExtentLocation

/-- "delta extent …: no source option resolved in extent index". -/
inductive DeltaReadError where
  | noSourceResolved (hash : Hash)
  deriving DecidableEq, Repr

namespace ExtentIndex

/-- A delta read up to the body and the blob it goes on to read: the first option whose source has
a DATA location. `none` when `hash` is no Delta. -/
def tryReadDeltaExtent (x : ExtentIndex) (hash : Hash) :
    Except DeltaReadError (Option (DeltaOption × ExtentLocation)) :=
  match x.lookupDelta hash with
  | none => .ok none
  | some deltaLoc =>
    match deltaLoc.options.findSome? fun opt =>
        (x.lookup opt.sourceHash).map fun sourceLoc => (opt, sourceLoc) with
    | some picked => .ok (some picked)
    | none => .error (.noSourceResolved hash)

/-- `hash` is read as a Delta: it is one, and the read finds a source. -/
def ReadsDelta (x : ExtentIndex) (hash : Hash) : Prop :=
  ∃ picked, x.tryReadDeltaExtent hash = .ok (some picked)

theorem readsDelta_iff {x : ExtentIndex} {h : Hash} :
    x.ReadsDelta h ↔ ∃ options, x.deltaOptions h = some options ∧
      ∃ o ∈ options, (x.lookup o.sourceHash).isSome = true := by
  rw [ReadsDelta, tryReadDeltaExtent, deltaOptions]
  cases x.lookupDelta h with
  | none => simp
  | some d =>
    simp only [Option.map_some, Option.some.injEq, exists_eq_left']
    cases hp : d.options.findSome? fun opt =>
        (x.lookup opt.sourceHash).map fun sourceLoc => (opt, sourceLoc) with
    | some picked =>
      refine iff_of_true ⟨picked, rfl⟩ ?_
      obtain ⟨o, ho, hpicked⟩ := exists_of_findSome?_eq_some hp
      obtain ⟨loc, hloc, -⟩ := Option.map_eq_some_iff.mp hpicked
      exact ⟨o, ho, by rw [hloc]; rfl⟩
    | none =>
      refine iff_of_false (by simp) ?_
      rintro ⟨o, ho, hsome⟩
      have hnone := findSome?_eq_none_iff.mp hp o ho
      rw [Option.map_eq_none_iff] at hnone
      rw [hnone] at hsome
      cases hsome

end ExtentIndex

/-! ## What the tiers choose -/

namespace Formation

variable (f : Formation) (maps : Maps) (batch : List PendingEntry)

/-- The hashes the same-LBA tier reserves. -/
def reserved : List Hash := f.prior.elim [] fun prior => reservedDeltaSources prior batch

/-- `p` is one block, sits on the snapshot's `source`, and its delta against it is worth storing. -/
structure SitsOn (p : PendingEntry) (source : Hash) : Prop where
  kind : p.entry.kind = .data
  single : p.entry.lbaLength = 1
  prior : f.prior.bind (· p.entry.startLba) = some source
  other : source ≠ p.entry.hash
  body : p.body = true
  free : p.entry.hash ∉ f.reserved batch
  readable : f.readsSource maps.extentIndex source = true
  worth : (f.deltaBlob p.entry source).isSome = true

variable (p : PendingEntry)

/-- The sketch map may offer `cand` for `p`: other content, referenced, and its body at hand. -/
def Usable (cand : Hash) : Prop :=
  cand ≠ p.entry.hash ∧
    (maps.lbamap.isReferenced cand ∨ cand ∈ maps.extentIndex.namedDeltaSources) ∧
    f.readsSource maps.extentIndex cand = true

instance (cand : Hash) : Decidable (f.Usable maps p cand) :=
  inferInstanceAs (Decidable (_ ∧ _ ∧ _))

/-- `source` is the best usable candidate of `p`, and its delta against it is worth storing. -/
structure Resembles (p : PendingEntry) (source : Hash) : Prop where
  kind : p.entry.kind = .data
  fresh : p.entry.deltaOptions = []
  data : p.entry.journal = false
  long : MIN_SKETCH_BYTES ≤ p.entry.lbaLength * LBA_BYTES
  body : p.body = true
  free : p.entry.hash ∉ f.reserved batch
  best : (f.candidates p.entry).find? (fun cand => decide (f.Usable maps p cand)) = some source
  worth : (f.deltaBlob p.entry source).isSome = true

/-- One of the tiers has a source for `p`. -/
def HasSource : Prop :=
  f.deltaEnabled = true ∧ ∃ source, f.SitsOn maps batch p source ∨ f.Resembles maps batch p source

/-- Some entry of the batch that carries `h` has a source of its own. -/
def Gives (h : Hash) : Prop := ∃ q ∈ batch, q.entry.hash = h ∧ f.HasSource maps batch q

/-- No resemblance source is a batch entry that has a source of its own; and a converted hash that
already has a Delta keeps a body under one of that Delta's sources. -/
structure SourcesHold : Prop where
  bodies : f.deltaEnabled = true → ∀ p ∈ batch, ∀ source, f.Resembles maps batch p source →
    ¬ f.Gives maps batch source
  homes : ∀ p ∈ batch, f.HasSource maps batch p →
    ∀ options, maps.extentIndex.deltaOptions p.entry.hash = some options →
      ∃ o ∈ options, (maps.extentIndex.lookup o.sourceHash).isSome = true ∧
        ¬ f.Gives maps batch o.sourceHash

variable {f maps batch} {p : PendingEntry} {source : Hash}

theorem priorSource_eq_some_iff {prior : ℕ → Option Hash} (hprior : f.prior = some prior) :
    ((f.priorSource maps.extentIndex prior (reservedDeltaSources prior batch) p).map Prod.fst =
      some source) ↔ f.SitsOn maps batch p source := by
  have hres : f.reserved batch = reservedDeltaSources prior batch := by
    rw [reserved, hprior]
    rfl
  rw [priorSource]
  constructor
  · intro h
    split_ifs at h with hk
    · obtain ⟨c, hc, hfst⟩ := Option.map_eq_some_iff.mp h
      obtain ⟨src, hsrc, hif⟩ := Option.bind_eq_some_iff.mp hc
      split_ifs at hif with hok
      obtain ⟨blob, hblob, rfl⟩ := Option.map_eq_some_iff.mp hif
      obtain rfl : src = source := hfst
      exact ⟨hk.1, hk.2, by rw [hprior]; exact hsrc, hok.1, hok.2.1, hres ▸ hok.2.2.1, hok.2.2.2,
        by rw [hblob]; rfl⟩
    · cases h
  · rintro ⟨hk, h1, hsrc, hne, hbody, hfree, hread, hworth⟩
    rw [hprior] at hsrc
    obtain ⟨blob, hblob⟩ := Option.isSome_iff_exists.mp hworth
    rw [if_pos ⟨hk, h1⟩, show prior p.entry.startLba = some source from hsrc, Option.bind_some,
      if_pos ⟨hne, hbody, hres ▸ hfree, hread⟩, hblob]
    rfl

theorem resemblanceSource_eq_some_iff :
    ((f.resemblanceSource maps (f.reserved batch) p).map Prod.fst = some source) ↔
      f.Resembles maps batch p source := by
  rw [resemblanceSource]
  constructor
  · intro h
    split_ifs at h with hk
    · obtain ⟨hkind, hfresh, hdata, hlong, hbody, hfree⟩ := hk
      obtain ⟨c, hc, hfst⟩ := Option.map_eq_some_iff.mp h
      obtain ⟨src, hsrc, hif⟩ := Option.bind_eq_some_iff.mp hc
      obtain ⟨blob, hblob, rfl⟩ := Option.map_eq_some_iff.mp hif
      obtain rfl : src = source := hfst
      exact ⟨hkind, hfresh, hdata, hlong, hbody, hfree, hsrc, by rw [hblob]; rfl⟩
    · cases h
  · rintro ⟨hkind, hfresh, hdata, hlong, hbody, hfree, hbest, hworth⟩
    obtain ⟨blob, hblob⟩ := Option.isSome_iff_exists.mp hworth
    rw [if_pos ⟨hkind, hfresh, hdata, hlong, hbody, hfree⟩]
    show (((f.candidates p.entry).find? fun cand => decide (f.Usable maps p cand)).bind _).map _ = _
    rw [hbest, Option.bind_some, hblob]
    rfl

/-- The tiers do not meet: an entry of one block has no sketch. -/
theorem SitsOn.not_resembles {source' : Hash} (h : f.SitsOn maps batch p source)
    (h' : f.Resembles maps batch p source') : False := by
  have hlong := h'.long
  rw [h.single, MIN_SKETCH_BYTES, LBA_BYTES] at hlong
  omega

/-- What the tiers convert an entry against. -/
theorem tierSource_eq_some_iff : f.tierSource maps batch p = some source ↔ f.deltaEnabled = true ∧
      (f.SitsOn maps batch p source ∨ f.Resembles maps batch p source) := by
  rw [tierSource]
  cases hen : f.deltaEnabled with
  | false => simp
  | true =>
    simp only [if_true, true_and]
    cases hprior : f.prior with
    | none =>
      have hres : f.reserved batch = [] := by
        rw [reserved, hprior]
        rfl
      have hno : ¬ f.SitsOn maps batch p source := by
        intro h
        have := h.prior
        rw [hprior] at this
        cases this
      rw [or_iff_right hno, ← resemblanceSource_eq_some_iff, hres]
    | some prior =>
      have hres : reservedDeltaSources prior batch = f.reserved batch := by
        rw [reserved, hprior]
        rfl
      dsimp only
      cases hp : f.priorSource maps.extentIndex prior (reservedDeltaSources prior batch) p with
      | some c =>
        have hsits : f.SitsOn maps batch p c.1 :=
          (priorSource_eq_some_iff hprior).mp (congrArg (Option.map Prod.fst) hp)
        rw [Option.some_or, ← hp, priorSource_eq_some_iff hprior,
          or_iff_left fun h => hsits.not_resembles h]
      | none =>
        have hno : ¬ f.SitsOn maps batch p source := by
          intro h
          rw [← priorSource_eq_some_iff hprior, hp] at h
          cases h
        rw [Option.none_or, hres, resemblanceSource_eq_some_iff, or_iff_right hno]

/-- A same-LBA source is reserved, so no entry that carries it has a source of its own. -/
theorem SitsOn.not_gives (h : f.SitsOn maps batch p source) (hp : p ∈ batch) :
    ¬ f.Gives maps batch source := by
  have hmem : source ∈ f.reserved batch := by
    obtain ⟨prior, hprior, hsrc⟩ := Option.bind_eq_some_iff.mp h.prior
    rw [reserved, hprior]
    exact mem_filterMap.mpr ⟨p, mem_filter.mpr ⟨hp, decide_eq_true ⟨h.kind, h.single⟩⟩, hsrc⟩
  rintro ⟨q, -, rfl, -, src, hq | hq⟩
  · exact hq.free hmem
  · exact hq.free hmem

/-- A source is read through the DATA map. -/
theorem isSome_lookup_of_tierSource (h : f.tierSource maps batch p = some source) :
    (maps.extentIndex.lookup source).isSome = true := by
  have hread : f.readsSource maps.extentIndex source = true := by
    rcases (tierSource_eq_some_iff.mp h).2 with h | h
    · exact h.readable
    · have husable := find?_some (p := fun cand => decide (f.Usable maps p cand)) h.best
      exact (of_decide_eq_true husable).2.2
  rw [readsSource] at hread
  cases hloc : maps.extentIndex.lookup source with
  | some loc => rfl
  | none =>
    rw [hloc] at hread
    cases hread

theorem hasSource_iff : f.HasSource maps batch p ↔ ∃ source, f.tierSource maps batch p = some source := by
  simp [tierSource_eq_some_iff, HasSource]

end Formation

/-! ## The formed segment -/

/-- The index holds the WAL location of every body the share carries, under the share's token, and
the share carries each body once: a later write of the hash is a DEDUP_REF by then. -/
structure ExtentIndex.OwnsShare (x : ExtentIndex) (wal : Ulid) (share : PendingPartition) : Prop where
  kinds : ∀ p ∈ share, p.1.entry.kind = .data ∨ p.1.entry.kind = .inline ∨
    p.1.entry.kind = .zero ∨ p.1.entry.kind = .dedupRef
  fresh : ∀ p ∈ share, p.1.entry.deltaOptions = []
  bodies : ∀ p ∈ share, p.1.entry.kind.hasBodyBytes = true →
    ∃ loc, x.lookup p.1.entry.hash = some loc ∧ loc.segmentId = wal ∧ p.2 = some loc.bodyOffset
  once : ∀ p ∈ share, ∀ q ∈ share, p.1.entry.kind.hasBodyBytes = true →
    q.1.entry.kind.hasBodyBytes = true → p.1.entry.hash = q.1.entry.hash → p = q
  deltas : ∀ h d, x.lookupDelta h = some d → d.segmentId ≠ wal

/-- What a formation is to leave: no source of a converted entry is converted with it, so that
every one has a DATA location and every converted entry is read. -/
structure Formation.NoDeltaOfDelta (entries : List SegmentEntry) (after : ExtentIndex) : Prop where
  apart : ∀ e ∈ entries, e.kind = .delta → ∀ o ∈ e.deltaOptions,
    ∀ e' ∈ entries, e'.kind = .delta → e'.hash ≠ o.sourceHash
  sources : ∀ e ∈ entries, e.kind = .delta → ∀ o ∈ e.deltaOptions,
    (after.lookup o.sourceHash).isSome = true
  readable : ∀ e ∈ entries, e.kind = .delta → after.ReadsDelta e.hash

section Formed

variable {f : Formation} {job : PromoteJob} {maps : Maps} {share : PendingPartition}

open ExtentIndex Formation

/-- The entries of the segment formed from a share. -/
abbrev Formation.formed (f : Formation) (job : PromoteJob) (maps : Maps) (share : PendingPartition) :
    List SegmentEntry :=
  (f.writePromote job maps (share, none)).primary.entries

/-- The bodies of a share. -/
abbrev Formation.bodies (f : Formation) (share : PendingPartition) : List PendingEntry :=
  f.materialisePendingBodies (share.map Prod.fst)

/-- The source the tiers choose for a write of the share. -/
abbrev Formation.chosen (f : Formation) (maps : Maps) (share : PendingPartition) (p : PendingWrite) :
    Option Hash :=
  f.tierSource maps (f.bodies share) (f.materialise p)

/-- The entries of the segment, write by write. -/
theorem shape_formed (f : Formation) (job : PromoteJob) (maps : Maps) (share : PendingPartition) :
    (f.formed job maps share).map shape =
      share.map fun p => p.1.entry.shape.against (f.chosen maps share p.1) := by
  rw [formed, entries_primary, shape_assignOffsets, map_map]
  refine (f.shape_deltaTiers maps _).trans ?_
  rw [materialisePendingBodies, map_map, map_map]
  refine map_congr_left fun p _ => ?_
  rw [chosen, bodies, materialisePendingBodies]
  show (f.materialise p.1).entry.shape.against _ = _
  rw [shape_materialise]

theorem hash_materialise (f : Formation) (p : PendingWrite) :
    (f.materialise p).entry.hash = p.entry.hash := by
  have hsame : (f.materialise p).entry.shape.hash = p.entry.shape.hash := by rw [shape_materialise]
  exact hsame

theorem mem_materialisePendingBodies {q : PendingEntry} :
    q ∈ f.bodies share ↔ ∃ p ∈ share, f.materialise p.1 = q := by
  rw [bodies, materialisePendingBodies, map_map]
  exact mem_map

/-- `e` is what the tiers make of the write `p`: a Delta against `source`. -/
structure Converted (f : Formation) (maps : Maps) (share : PendingPartition) (p : PendingWrite)
    (source : Hash) (e : SegmentEntry) : Prop where
  chosen : f.tierSource maps (f.materialisePendingBodies (share.map Prod.fst)) (f.materialise p) =
    some source
  hash : e.hash = p.entry.hash
  kind : e.kind = .delta
  sources : e.deltaOptions.map sourceHash = [source]

variable {source : Hash} {e : SegmentEntry}

theorem converted_of_shape {p : PendingWrite} (hfresh : p.entry.deltaOptions = [])
    (hchosen : f.chosen maps share p = some source)
    (hshape : e.shape = p.entry.shape.against (some source)) :
    Converted f maps share p source e := by
  have hhash : e.shape.hash = p.entry.hash := by
    rw [hshape]
    rfl
  have hkind : e.shape.kind = .delta := by
    rw [hshape]
    rfl
  refine ⟨hchosen, hhash, hkind, ?_⟩
  have hoptions := congrArg (fun e => e.deltaOptions.map sourceHash) hshape
  simpa [shape, against, hfresh] using hoptions

variable {x : ExtentIndex} {wal : Ulid}

/-- A Delta of the segment comes from a write of the share that the tiers converted. -/
theorem exists_converted (hown : x.OwnsShare wal share)
    (he : e ∈ f.formed job maps share) (hkind : e.kind = .delta) :
    ∃ p ∈ share, ∃ source, Converted f maps share p.1 source e := by
  have hmem := mem_map_of_mem (f := shape) he
  rw [shape_formed] at hmem
  obtain ⟨p, hp, hshape⟩ := mem_map.mp hmem
  cases hchosen : f.chosen maps share p.1 with
  | some source =>
    rw [hchosen] at hshape
    exact ⟨p, hp, source, converted_of_shape (hown.fresh p hp) hchosen hshape.symm⟩
  | none =>
    rw [hchosen] at hshape
    have hsame : p.1.entry.kind = e.shape.kind := by
      rw [← hshape]
      rfl
    have hkind : e.shape.kind = .delta := hkind
    rcases hown.kinds p hp with h | h | h | h <;> rw [hsame, hkind] at h <;> exact absurd h (by simp)

variable {p : PendingWrite × Option ℕ}

theorem exists_entry_of_chosen (job : PromoteJob) (hown : x.OwnsShare wal share) (hp : p ∈ share)
    (hchosen : f.chosen maps share p.1 = some source) :
    ∃ e ∈ f.formed job maps share,
      Converted f maps share p.1 source e := by
  have hmem := mem_map_of_mem (f := fun p : PendingWrite × Option ℕ =>
    p.1.entry.shape.against (f.chosen maps share p.1)) hp
  rw [← shape_formed f job] at hmem
  obtain ⟨e, he, hshape⟩ := mem_map.mp hmem
  rw [hchosen] at hshape
  exact ⟨e, he, converted_of_shape (hown.fresh p hp) hchosen hshape⟩

/-- Every write of the share that a tier converts carries a body. -/
theorem Converted.hasBodyBytes {p : PendingWrite} (h : Converted f maps share p source e) :
    p.entry.kind.hasBodyBytes = true := by
  have hkind : (f.materialise p).entry.kind = .data := by
    rcases (tierSource_eq_some_iff.mp h.chosen).2 with h | h
    · exact h.kind
    · exact h.kind
  have hsame : (f.materialise p).entry.shape.kind = p.entry.shape.kind := by rw [shape_materialise]
  have hdata : p.entry.kind = .data := hsame.symm.trans hkind
  rw [hdata]
  rfl

/-- An entry of the segment keeps the hash of its write, and reaches the DATA map only with a body
behind it. -/
theorem frame_of_shape (hown : x.OwnsShare wal share) (hp : p ∈ share)
    (hshape : p.1.entry.shape.against (f.chosen maps share p.1) = e.shape) :
    e.hash = p.1.entry.hash ∧ e.kind.isCanonicalOnly = false ∧
      (e.inDataTier = true → p.1.entry.kind.hasBodyBytes = true) := by
  cases hchosen : f.chosen maps share p.1 with
  | some source =>
    rw [hchosen] at hshape
    have hconv := converted_of_shape (hown.fresh p hp) hchosen hshape.symm
    exact ⟨hconv.hash, by rw [hconv.kind]; rfl, fun _ => hconv.hasBodyBytes⟩
  | none =>
    rw [hchosen] at hshape
    have hhash : e.shape.hash = p.1.entry.hash := by
      rw [← hshape]
      rfl
    have hkind : e.shape.kind = p.1.entry.kind := by
      rw [← hshape]
      rfl
    have hkind : e.kind = p.1.entry.kind := hkind
    refine ⟨hhash, ?_, fun htier => ?_⟩
    · rw [hkind]
      rcases hown.kinds p hp with h | h | h | h <;> rw [h] <;> rfl
    · rw [inDataTier, hkind, Bool.or_eq_true, Bool.and_eq_true, decide_eq_true_eq] at htier
      rcases htier with hd | ⟨hb, -⟩
      · rcases hown.kinds p hp with h | h | h | h <;> exact absurd (h.symm.trans hd) (by simp)
      · exact hb

/-- Some entry of the segment is a Delta of `h`. -/
def ConvertsHash (entries : List SegmentEntry) (h : Hash) : Prop :=
  ∃ e ∈ entries, e.kind = .delta ∧ e.hash = h

theorem convertsHash_iff_gives (hown : x.OwnsShare wal share) (h : Hash) :
    ConvertsHash (f.formed job maps share) h ↔ f.Gives maps (f.bodies share) h := by
  constructor
  · rintro ⟨e, he, hkind, rfl⟩
    obtain ⟨p, hp, source, hconv⟩ := exists_converted hown he hkind
    exact ⟨f.materialise p.1, mem_materialisePendingBodies.mpr ⟨p, hp, rfl⟩,
      (hash_materialise f p.1).trans hconv.hash.symm, hasSource_iff.mpr ⟨source, hconv.chosen⟩⟩
  · rintro ⟨q, hq, rfl, hsource⟩
    obtain ⟨p, hp, rfl⟩ := mem_materialisePendingBodies.mp hq
    obtain ⟨source, hchosen⟩ := hasSource_iff.mp hsource
    obtain ⟨e, he, hconv⟩ := exists_entry_of_chosen job hown hp hchosen
    exact ⟨e, he, hconv.kind, hconv.hash.trans (hash_materialise f p.1).symm⟩

/-- The first entry of a converted hash that reaches the DATA map is the Delta. -/
theorem firstData_of_converted (hown : x.OwnsShare wal share) (hp : p ∈ share)
    (he : e ∈ f.formed job maps share)
    (hconv : Converted f maps share p.1 source e) :
    ∃ e', firstData (f.formed job maps share) e.hash = some e' ∧
      Converted f maps share p.1 source e' := by
  have htier : e.inDataTier = true := by
    rw [inDataTier, hconv.kind]
    rfl
  cases hfirst : firstData (f.formed job maps share) e.hash with
  | none =>
    have hnone := find?_eq_none.mp hfirst e he
    exact absurd (by simp [htier]) hnone
  | some e' =>
    refine ⟨e', rfl, ?_⟩
    have hfound : (decide (e'.hash = e.hash) && e'.inDataTier) = true := find?_some
      (p := fun e' : SegmentEntry => decide (e'.hash = e.hash) && e'.inDataTier) hfirst
    rw [Bool.and_eq_true, decide_eq_true_eq] at hfound
    have hmem := mem_map_of_mem (f := shape) (mem_of_find?_eq_some hfirst)
    rw [shape_formed] at hmem
    obtain ⟨q, hq, hshape⟩ := mem_map.mp hmem
    -- the write behind it carries a body of the same hash, and there is one such write
    obtain ⟨hhash, -, hbody⟩ := frame_of_shape hown hq hshape
    have hhash := hhash.symm.trans (hfound.1.trans hconv.hash)
    obtain rfl := hown.once q hq p hp (hbody hfound.2) hconv.hasBodyBytes hhash
    rw [chosen, hconv.chosen] at hshape
    exact converted_of_shape (hown.fresh _ hq) hconv.chosen hshape.symm

variable {c wal : Ulid} {x y : ExtentIndex}

theorem ExtentIndex.OwnsShare.owner_eq (hown : x.OwnsShare wal share) (hp : p ∈ share)
    (hconv : Converted f maps share p.1 source e) : x.owner e.hash = some wal := by
  obtain ⟨loc, hloc, hseg, -⟩ := hown.bodies p hp hconv.hasBodyBytes
  rw [owner, hconv.hash, hloc, Option.map_some, hseg]

section

variable (hown : x.OwnsShare wal share)
  (happ : Applied wal c (fun _ => False) x (f.formed job maps share) y)
include hown happ

/-- **What keeps a body.** Applying the segment takes the DATA location from the converted hashes
and from no other. -/
theorem isSome_lookup_applied (h : Hash) : (y.lookup h).isSome = true ↔ (x.lookup h).isSome = true ∧
      ¬ ConvertsHash (f.formed job maps share) h := by
  have hy : (y.lookup h).isSome = (y.owner h).isSome := by rw [owner, Option.isSome_map]
  have hx : (x.lookup h).isSome = (x.owner h).isSome := by rw [owner, Option.isSome_map]
  rw [hy, hx, happ.owner h]
  by_cases hconv : ConvertsHash (f.formed job maps share) h
  · obtain ⟨e, he, hkind, rfl⟩ := hconv
    obtain ⟨p, hp, source, hc⟩ := exists_converted hown he hkind
    obtain ⟨e', hfirst, hc'⟩ := firstData_of_converted hown hp he hc
    rw [if_pos (hown.owner_eq hp hc), hfirst, Option.elim_some, if_pos hc'.kind]
    exact iff_of_false (by simp) fun hcon => hcon.2 ⟨e, he, hkind, rfl⟩
  · rw [and_iff_left hconv]
    split_ifs with ho
    · rw [ho]
      cases hfirst : firstData (f.formed job maps share) h with
      | none => rfl
      | some e =>
        have hfound : (decide (e.hash = h) && e.inDataTier) = true := find?_some
          (p := fun e : SegmentEntry => decide (e.hash = h) && e.inDataTier) hfirst
        have hnot : e.kind ≠ .delta := by
          intro hkind
          rw [Bool.and_eq_true, decide_eq_true_eq] at hfound
          exact hconv ⟨e, mem_of_find?_eq_some hfirst, hkind, hfound.1⟩
        rw [Option.elim_some, if_neg hnot]
        exact iff_of_true rfl rfl
    · exact Iff.rfl

/-- The Delta that serves a converted hash: the one it had, or the new one. -/
theorem deltaOptions_applied (hp : p ∈ share)
    (he : e ∈ f.formed job maps share)
    (hconv : Converted f maps share p.1 source e) : ∃ e', Converted f maps share p.1 source e' ∧
      y.deltaOptions e.hash = (x.deltaOptions e.hash).or (some e'.deltaOptions) := by
  obtain ⟨e', hfirst, hconv'⟩ := firstData_of_converted hown hp he hconv
  refine ⟨e', hconv', ?_⟩
  rw [happ.options e.hash (fun h => h), if_pos (hown.owner_eq hp hconv), hfirst, Option.bind_some,
    if_pos hconv'.kind]

end

theorem Converted.mem_sources {p : PendingWrite} (hconv : Converted f maps share p source e)
    {o : DeltaOption} (ho : o ∈ e.deltaOptions) : o.sourceHash = source := by
  have hmem := mem_map_of_mem (f := sourceHash) ho
  rw [hconv.sources] at hmem
  exact mem_singleton.mp hmem

theorem Converted.exists_option {p : PendingWrite} (hconv : Converted f maps share p source e) :
    ∃ o ∈ e.deltaOptions, o.sourceHash = source := by
  have hmem : source ∈ e.deltaOptions.map sourceHash := by
    rw [hconv.sources]
    exact mem_singleton_self _
  exact mem_map.mp hmem

/-- The share's segment is applied without an error. -/
theorem ExtentIndex.OwnsShare.applied (hown : maps.extentIndex.OwnsShare job.oldWalUlid share)
    (hne : job.segmentUlid ≠ job.oldWalUlid) :
    ∃ after, applyPromotedEntries (f.writePromote job maps (share, none)) maps = .ok after ∧
      Applied job.oldWalUlid job.segmentUlid (fun _ => False) maps.extentIndex
        (f.formed job maps share) after.extentIndex := by
  rw [formed]
  generalize hpart : (f.writePromote job maps (share, none)).primary = part
  have hoffsets : part.prePromoteOffsets = share.map Prod.snd := by
    rw [← hpart]
    rfl
  have hseg : part.segmentUlid = job.segmentUlid := by
    rw [← hpart]
    rfl
  have hshapes := shape_formed f job maps share
  rw [formed, hpart] at hshapes
  have hlen := congrArg length hshapes
  rw [length_map, length_map] at hlen
  have htok : maps.extentIndex.Tokens job.oldWalUlid
      (fun h => (maps.extentIndex.lookup h).map bodyOffset) (fun _ => False) := by
    refine ⟨fun h loc hloc _ => ?_, fun h _ hsome => .inl ?_, hown.deltas⟩
    · rw [hloc]
      rfl
    · rwa [Option.isSome_map] at hsome
  have hes : ∀ p ∈ part.entries.zip part.prePromoteOffsets, p.1.kind.isCanonicalOnly = false ∧
      (p.1.inDataTier = true →
        p.2 = (maps.extentIndex.lookup p.1.hash).map bodyOffset) := by
    rintro ⟨e, t⟩ hmem
    have hzip : (e.shape, t) ∈ (part.entries.map shape).zip (share.map Prod.snd) := by
      rw [zip_map_left, ← hoffsets]
      exact mem_map.mpr ⟨(e, t), hmem, rfl⟩
    rw [hshapes, zip_map'] at hzip
    obtain ⟨p, hp, heq⟩ := mem_map.mp hzip
    obtain ⟨hshape, rfl⟩ := Prod.mk.inj heq
    obtain ⟨hhash, hcanonical, hbody⟩ := frame_of_shape hown hp hshape
    refine ⟨hcanonical, fun htier => ?_⟩
    obtain ⟨loc, hloc, -, htoken⟩ := hown.bodies p hp (hbody htier)
    rw [htoken, hhash, hloc]
    rfl
  obtain ⟨y, hy, happ, -⟩ := SegmentResult.applied maps htok (hseg ▸ hne)
    (by rw [hoffsets, length_map, hlen]) hes
  refine ⟨⟨part.restampClaims maps.lbamap, y⟩, ?_, hseg ▸ happ⟩
  rw [applyPromotedEntries, hpart, show (f.writePromote job maps (share, none)).oldWalUlid =
    job.oldWalUlid from rfl, hy]
  rfl

/-- **Deltas of deltas.** After the two tiers and the apply, no source of a converted entry was
converted with it, every source has a DATA location and every converted entry is read, exactly when
the sources hold. -/
theorem Formation.no_delta_of_delta_iff
    (hown : maps.extentIndex.OwnsShare job.oldWalUlid share)
    (hne : job.segmentUlid ≠ job.oldWalUlid) :
    (∃ after, applyPromotedEntries (f.writePromote job maps (share, none)) maps = .ok after ∧
      NoDeltaOfDelta (f.writePromote job maps (share, none)).primary.entries after.extentIndex) ↔
      f.SourcesHold maps (f.materialisePendingBodies (share.map Prod.fst)) := by
  obtain ⟨after, hafter, happ⟩ := hown.applied (f := f) hne
  have hconverts : ∀ h, ConvertsHash (f.formed job maps share) h ↔ f.Gives maps (f.bodies share) h :=
    convertsHash_iff_gives hown
  have hkeeps := isSome_lookup_applied hown happ
  have hbatch : ∀ p ∈ share, f.materialise p.1 ∈ f.bodies share :=
    fun p hp => mem_materialisePendingBodies.mpr ⟨p, hp, rfl⟩
  constructor
  · rintro ⟨after', hafter', hno⟩
    obtain rfl : after' = after := by
      rw [hafter] at hafter'
      exact (Except.ok.inj hafter').symm
    refine ⟨fun hen q hq source hres hgives => ?_, fun q hq hsource options hoptions => ?_⟩
    · obtain ⟨p, hp, rfl⟩ := mem_materialisePendingBodies.mp hq
      obtain ⟨e, he, hconv⟩ := exists_entry_of_chosen job hown hp
        (tierSource_eq_some_iff.mpr ⟨hen, .inr hres⟩)
      obtain ⟨o, ho, rfl⟩ := hconv.exists_option
      obtain ⟨e', he', hkind', hhash'⟩ := (hconverts _).mpr hgives
      exact hno.apart e he hconv.kind o ho e' he' hkind' hhash'
    · obtain ⟨p, hp, rfl⟩ := mem_materialisePendingBodies.mp hq
      obtain ⟨source, hchosen⟩ := hasSource_iff.mp hsource
      obtain ⟨e, he, hconv⟩ := exists_entry_of_chosen job hown hp hchosen
      obtain ⟨e', -, hserves⟩ := deltaOptions_applied hown happ hp he hconv
      obtain ⟨options', hoptions', o, ho, hbody⟩ := readsDelta_iff.mp (hno.readable e he hconv.kind)
      rw [hash_materialise, ← hconv.hash] at hoptions
      rw [hserves, hoptions, Option.some_or, Option.some.injEq] at hoptions'
      subst hoptions'
      obtain ⟨hsome, hfree⟩ := (hkeeps o.sourceHash).mp hbody
      exact ⟨o, ho, hsome, fun hgives => hfree ((hconverts _).mpr hgives)⟩
  · intro hold
    -- every source has a body, and no converted entry takes it
    have hsource : ∀ p ∈ share, ∀ source e, Converted f maps share p.1 source e →
        (after.extentIndex.lookup source).isSome = true ∧
          ¬ ConvertsHash (f.formed job maps share) source := by
      intro p hp source e hconv
      have hfree : ¬ f.Gives maps (f.bodies share) source := by
        obtain ⟨hen, hsits | hres⟩ := tierSource_eq_some_iff.mp hconv.chosen
        · exact hsits.not_gives (hbatch p hp)
        · exact hold.bodies hen _ (hbatch p hp) source hres
      have hfree := fun hcon => hfree ((hconverts source).mp hcon)
      exact ⟨(hkeeps source).mpr ⟨isSome_lookup_of_tierSource hconv.chosen, hfree⟩, hfree⟩
    refine ⟨after, hafter, ?_, ?_, ?_⟩
    · intro e he hkind o ho e' he' hkind' hhash'
      obtain ⟨p, hp, source, hconv⟩ := exists_converted hown he hkind
      obtain rfl := hconv.mem_sources ho
      exact (hsource p hp _ e hconv).2 ⟨e', he', hkind', hhash'⟩
    · intro e he hkind o ho
      obtain ⟨p, hp, source, hconv⟩ := exists_converted hown he hkind
      obtain rfl := hconv.mem_sources ho
      exact (hsource p hp _ e hconv).1
    · intro e he hkind
      obtain ⟨p, hp, source, hconv⟩ := exists_converted hown he hkind
      obtain ⟨e', hconv', hserves⟩ := deltaOptions_applied hown happ hp he hconv
      refine readsDelta_iff.mpr ?_
      cases hoptions : maps.extentIndex.deltaOptions e.hash with
      | none =>
        obtain ⟨o, ho, rfl⟩ := hconv'.exists_option
        refine ⟨e'.deltaOptions, ?_, o, ho, (hsource p hp _ e' hconv').1⟩
        rw [hserves, hoptions, Option.none_or]
      | some options =>
        have hhash := (hash_materialise f p.1).trans hconv.hash.symm
        obtain ⟨o, ho, hsome, hfree⟩ := hold.homes _ (hbatch p hp)
          (hasSource_iff.mpr ⟨source, hconv.chosen⟩) options (hhash ▸ hoptions)
        refine ⟨options, ?_, o, ho, (hkeeps _).mpr ⟨hsome, fun h => hfree ((hconverts _).mp h)⟩⟩
        rw [hserves, hoptions, Option.some_or]

/-! ## Two entries that resemble each other -/

/-- Two writes of eight blocks each, contents 1 and 2, in the WAL with ULID 2. -/
def twoWrites : PendingPartition :=
  [(⟨.newDataNoBody 1 0 8 .none 32768, some 0⟩, some 0),
    (⟨.newDataNoBody 2 8 8 .none 32768, some 32768⟩, some 32768)]

/-- The maps of that epoch over content 3, which segment 1 holds. -/
def twoWritesMaps : Maps where
  lbamap := ((LbaMap.new.insert 16 8 3 1).insert 0 8 1 2).insert 8 8 2 2
  extentIndex :=
    ((new.insert 3 ⟨1, 0, 32768, .none, .local, 96, none⟩).insert 1
      ⟨2, 0, 32768, .none, .local, 0, none⟩).insert 2 ⟨2, 32768, 32768, .none, .local, 0, none⟩

/-- The promote of both writes. -/
def twoWritesJob : PromoteJob where
  segmentUlid := 3
  oldWalUlid := 2
  pending := twoWrites.map Prod.fst
  journalRanges := .EMPTY
  journalSegmentUlid := 4
  layers := .new twoWritesMaps

/-- The sketch map offers `candidates`, and every delta is worth storing. -/
def sketching (candidates : Hash → List Hash) : Formation :=
  { Formation.plain with
    deltaEnabled := true
    candidates := fun e => candidates e.hash
    deltaBlob := fun _ _ => some (100, 0) }

theorem twoWrites_owned : twoWritesMaps.extentIndex.OwnsShare 2 twoWrites := by
  refine ⟨by decide, by decide, ?_, by decide, ?_⟩
  · intro p hp _
    rcases mem_pair.mp hp with rfl | rfl
    · exact ⟨⟨2, 0, 32768, .none, .local, 0, none⟩, by decide⟩
    · exact ⟨⟨2, 32768, 32768, .none, .local, 0, none⟩, by decide⟩
  · intro h d hd
    cases hd

/-- Both resemble content 3 and nothing resembles them: the sources hold. -/
theorem no_delta_of_delta_two_writes :
    twoWritesMaps.extentIndex.OwnsShare twoWritesJob.oldWalUlid twoWrites ∧
      (sketching fun _ => [3]).SourcesHold twoWritesMaps
        ((sketching fun _ => [3]).materialisePendingBodies (twoWrites.map Prod.fst)) ∧
      ∃ after, applyPromotedEntries
          ((sketching fun _ => [3]).writePromote twoWritesJob twoWritesMaps (twoWrites, none))
          twoWritesMaps = .ok after ∧
        Formation.NoDeltaOfDelta ((sketching fun _ => [3]).writePromote twoWritesJob twoWritesMaps
          (twoWrites, none)).primary.entries after.extentIndex := by
  have hhold : (sketching fun _ => [3]).SourcesHold twoWritesMaps
      ((sketching fun _ => [3]).materialisePendingBodies (twoWrites.map Prod.fst)) := by
    refine ⟨fun _ p _ source hres => ?_, fun p _ _ options hoptions => ?_⟩
    · have hsource : source = 3 :=
        mem_singleton.mp (mem_of_find?_eq_some hres.best)
      rintro ⟨q, hq, hhash, -⟩
      have hother : ∀ q ∈ (sketching fun _ => [3]).materialisePendingBodies
          (twoWrites.map Prod.fst), q.entry.hash ≠ 3 := by decide
      exact hother q hq (hhash.trans hsource)
    · rw [ExtentIndex.deltaOptions, show twoWritesMaps.extentIndex.lookupDelta p.entry.hash = none
        from AList.lookup_empty _] at hoptions
      cases hoptions
  exact ⟨twoWrites_owned, hhold,
    (Formation.no_delta_of_delta_iff twoWrites_owned (by decide)).mpr hhold⟩

/-- Content 1 resembles 3, and content 2 resembles 1: both are converted, and 2 is left as a Delta
of a Delta. -/
theorem delta_of_delta_formed :
    twoWritesMaps.extentIndex.OwnsShare twoWritesJob.oldWalUlid twoWrites ∧
      ¬ ∃ after, applyPromotedEntries
          ((sketching fun h => if h = 1 then [3] else [1]).writePromote twoWritesJob twoWritesMaps
            (twoWrites, none)) twoWritesMaps = .ok after ∧
        Formation.NoDeltaOfDelta ((sketching fun h => if h = 1 then [3] else [1]).writePromote
          twoWritesJob twoWritesMaps (twoWrites, none)).primary.entries after.extentIndex := by
  refine ⟨twoWrites_owned, ?_⟩
  rintro ⟨after, -, hno⟩
  exact hno.apart
    { hash := 2, startLba := 8, lbaLength := 8, kind := .delta, deltaOptions := [⟨1, 100, 100, 0⟩] }
    (by decide) rfl ⟨1, 100, 100, 0⟩ (by decide)
    { hash := 1, startLba := 0, lbaLength := 8, kind := .delta, deltaOptions := [⟨3, 0, 100, 0⟩] }
    (by decide) rfl rfl

end Formed

end Elide
