import Elide.ExtentIndex.Resolution
import Elide.Rewrite.Outputs

/-!
# Which rewrite plans cancel

The classifier and the materialiser read the same extent index and ask it different questions. The
classifier checks that a partly dead Delta has a source in the data map. The materialiser asks the
data map for the hash of a partly dead reference as well, and refuses journal-tier entries unless
the pass permits them. Where every body can be read those are the only two ways a plan cancels.

The first of them is a plan that can never be materialised: a reference to a hash whose only home
is the deltas map resolves for a reader, and the pass that cuts it cancels every time.

## Main results

* `MaterialiseCtx.not_cancels_iff` — a plan over classified entries does not cancel exactly when
  every entry is in a permitted tier and every partly live reference has its hash in the data map
* `cancels_reference_to_delta` — a reference to a delta's hash, partly overwritten
-/

namespace Elide

open Rewrite List AList EntryKind

/-- An entry of an input segment picked for a rewrite. -/
structure Pick where
  input : Ulid
  entryIdx : ℕ
  entry : SegmentEntry

namespace MaterialiseCtx

variable (ctx : MaterialiseCtx) (lbaMap : LbaMap)

/-- The view input `s` is classified against: the extent index is the materialiser's own. -/
def classifyCtx (liveHashes : Finset Hash) (s : Ulid) : ClassifyCtx :=
  ⟨lbaMap, ctx.extentIndex, liveHashes, s⟩

/-- The classification of a picked entry. -/
def classify (liveHashes : Finset Hash) (pick : Pick) : EntryClassification :=
  classifyEntry pick.entry (ctx.classifyCtx lbaMap liveHashes pick.input)

/-- The records emitted for a picked entry. -/
def records (liveHashes : Finset Hash) (pick : Pick) : List PlanOutput :=
  emitOutput pick.input pick.entryIdx (ctx.classify lbaMap liveHashes pick)

/-- The context holds the picked entry. -/
def Holds (pick : Pick) : Prop :=
  ∃ state, ctx.HasEntry pick.input pick.entryIdx state pick.entry

/-- Some blocks of the picked entry are live and some are not. -/
def PartlyLive (liveHashes : Finset Hash) (pick : Pick) : Prop :=
  (ctx.classifyCtx lbaMap liveHashes pick.input).PartlyLive pick.entry

/-- The picked entry makes a claim, and the classifier has something to emit for it. -/
def Rewrites (liveHashes : Finset Hash) (pick : Pick) : Prop :=
  (pick.entry.kind = .data ∨ pick.entry.kind = .inline ∨ pick.entry.kind = .dedupRef ∨
    pick.entry.kind = .delta) ∧
  (ctx.classify lbaMap liveHashes pick = .fullyLive ∨
    ctx.classify lbaMap liveHashes pick = .demoteToCanonical ∨
    ∃ liveRuns emitCanonical,
      ctx.classify lbaMap liveHashes pick = .partialDeath liveRuns emitCanonical)

variable {ctx : MaterialiseCtx} {plaintext : Hash → Bytes} {lbaMap : LbaMap}
  {liveHashes : Finset Hash} {pick : Pick} {o : PlanOutput}

/-- An emitted record fits the entry it was emitted for, in a context that resolves what the view
did. -/
theorem placed_of_emitted {view : ClassifyCtx} (hm : view.lbaMap.Wf)
    (hsrc : ∀ h, (view.extentIndex.lookup h).isSome = true →
      (ctx.extentIndex.lookup h).isSome = true)
    (h : ctx.Holds pick) (hseg : view.segmentId = pick.input)
    (ho : Emitted view pick.entry pick.entryIdx o) : ctx.Placed pick.entry o := by
  rw [Holds, ← hseg] at h
  cases ho with
  | zero hkind hr => exact ⟨h, hkind⟩
  | keepCanonical | keepLive | keepDeferred => exact h
  | canonicalCanonical hcanon =>
    refine ⟨h, ?_⟩
    cases hk : pick.entry.kind <;> simp_all [isCanonicalOnly, ownsExtentHash]
  | canonical hclaims hkind =>
    refine ⟨h, ?_⟩
    obtain ⟨hzero, hcanon⟩ := hclaims
    cases hk : pick.entry.kind <;> simp_all [ownsExtentHash]
  | run hclaims hlive hsource hr =>
    obtain ⟨h1, h2, h3, h4⟩ := ClassifyCtx.of_mem_liveRuns hm hr
    refine ⟨h, hclaims.1, hclaims.2, fun hkind => ?_, by omega⟩
    obtain ⟨opt, hopt, hsome⟩ := any_eq_true.mp (hsource hkind)
    exact ⟨opt, hopt, hsrc _ hsome⟩

theorem placed_of_mem_records (hm : lbaMap.Wf) (h : ctx.Holds pick)
    (ho : o ∈ ctx.records lbaMap liveHashes pick) : ctx.Placed pick.entry o :=
  placed_of_emitted hm (fun _ hsome => hsome) h rfl (emitted_of_mem_emitOutput hm ho)

/-! ## The condition, entry by entry -/

/-- The picked entry does not cancel its plan. -/
def Materialisable (ctx : MaterialiseCtx) (lbaMap : LbaMap) (liveHashes : Finset Hash)
    (pick : Pick) : Prop :=
  ctx.TierAllowed pick.entry ∧
    (pick.entry.kind = .dedupRef → ctx.PartlyLive lbaMap liveHashes pick →
      (ctx.extentIndex.lookup pick.entry.hash).isSome = true)

theorem Materialisable.accepted (hmat : ctx.Materialisable lbaMap liveHashes pick)
    (ho : Emitted (ctx.classifyCtx lbaMap liveHashes pick.input) pick.entry pick.entryIdx o) :
    ctx.Accepted pick.entry o := by
  cases ho with
  | zero | keepCanonical | canonicalCanonical | keepLive | keepDeferred | canonical => exact hmat.1
  | run hclaims hlive hsource hr => exact .inr ⟨hmat.1, fun hkind => hmat.2 hkind hlive⟩

/-- A partly live entry the classifier does not defer has a record for a run of positive length. -/
theorem exists_run_mem_records (hm : lbaMap.Wf) (hclaims : pick.entry.ClaimsBody)
    (hlive : ctx.PartlyLive lbaMap liveHashes pick)
    (hsource : ¬ (pick.entry.kind = .delta ∧
      (ctx.classifyCtx lbaMap liveHashes pick.input).hasResolvableSource pick.entry = false)) :
    ∃ r : ExtentRead, r.rangeStart < r.rangeEnd ∧
      runOutput pick.input pick.entryIdx r ∈ ctx.records lbaMap liveHashes pick := by
  have heq : ctx.classify lbaMap liveHashes pick = _ :=
    classifyEntry_of_partlyLive hm hclaims.1 hclaims.2 hlive
  rw [if_neg hsource] at heq
  obtain ⟨⟨x, hx, hxlive⟩, -⟩ := hlive
  obtain ⟨r, hr, hcov⟩ := (ClassifyCtx.live_iff_exists_liveRun hm hx).mp hxlive
  refine ⟨r, lt_of_le_of_lt hcov.1 hcov.2, ?_⟩
  rw [records, heq]
  exact mem_append_right _ (mem_map_of_mem hr)

/-- An entry all of whose records are accepted does not cancel its plan. -/
theorem materialisable_of_accepted (hm : lbaMap.Wf) (hrw : ctx.Rewrites lbaMap liveHashes pick)
    (hacc : ∀ o ∈ ctx.records lbaMap liveHashes pick, ctx.Accepted pick.entry o) :
    ctx.Materialisable lbaMap liveHashes pick := by
  have hclaims : pick.entry.ClaimsBody := by
    constructor
    · intro hzero
      exact absurd hrw.1 (by simp [hzero])
    · rcases hrw.1 with hk | hk | hk | hk <;> rw [hk] <;> rfl
  have hrun : ctx.PartlyLive lbaMap liveHashes pick → ¬ (pick.entry.kind = .delta ∧
        (ctx.classifyCtx lbaMap liveHashes pick.input).hasResolvableSource pick.entry = false) →
      ctx.TierAllowed pick.entry ∧ (pick.entry.kind = .dedupRef →
        (ctx.extentIndex.lookup pick.entry.hash).isSome = true) := by
    intro hlive hsource
    obtain ⟨r, hpos, hmem⟩ := exists_run_mem_records hm hclaims hlive hsource
    exact (hacc _ hmem).resolve_left (by omega)
  refine ⟨?_, fun hkind hlive => (hrun hlive (by simp [hkind])).2 hkind⟩
  have hm' : (ctx.classifyCtx lbaMap liveHashes pick.input).lbaMap.Wf := hm
  rcases hclaims.cases hm' with ⟨-, heq⟩ | ⟨-, -, heq⟩ | ⟨hlive, heq⟩
  · refine hacc (.keep pick.input pick.entryIdx) ?_
    rw [records, classify, heq]
    exact mem_singleton_self _
  · refine hacc (.canonical pick.input pick.entryIdx) ?_
    have hdemote : ctx.classify lbaMap liveHashes pick = .demoteToCanonical := by
      rcases hrw.2 with h | h | ⟨runs, emit, h⟩
      · rw [classify, heq] at h
        split_ifs at h
      · exact h
      · rw [classify, heq] at h
        split_ifs at h
    rw [records, hdemote]
    exact mem_singleton_self _
  · refine (hrun hlive fun hdefer => ?_).1
    rw [if_pos hdefer] at heq
    have hclass := hrw.2
    rw [classify, heq] at hclass
    simp at hclass

/-! ## A whole plan -/

/-- **Which plans cancel.** Over entries the classifier found live, live elsewhere or partly live,
with every body readable, materialisation does not cancel exactly when each entry is in a tier the
pass permits and each partly live reference has its hash in the data map. -/
theorem not_cancels_iff (hm : lbaMap.Wf) (hr : ctx.Readable plaintext) {picks : List Pick}
    (hpicks : ∀ pick ∈ picks, ctx.Holds pick ∧ ctx.Rewrites lbaMap liveHashes pick)
    (newUlid : Ulid) :
    (∀ e, materialisePlan ⟨newUlid, picks.flatMap (ctx.records lbaMap liveHashes)⟩ ctx ≠
        .error (.cancel e)) ↔
      ∀ pick ∈ picks, ctx.Materialisable lbaMap liveHashes pick := by
  have hslot : ctx.SlotOk {} := fun s hs => absurd hs (by simp)
  have hplaced : ∀ o ∈ picks.flatMap (ctx.records lbaMap liveHashes), ctx.Wellplaced o := by
    intro o ho
    obtain ⟨pick, hpick, ho⟩ := mem_flatMap.mp ho
    exact .inr ⟨pick.entry, placed_of_mem_records hm (hpicks pick hpick).1 ho⟩
  constructor
  · intro hno pick hpick
    refine materialisable_of_accepted hm (hpicks pick hpick).2 fun o ho => ?_
    by_contra hacc
    obtain ⟨e, hcancel⟩ := hr.cancels_applyOutputs hplaced
      ⟨o, mem_flatMap.mpr ⟨pick, hpick, ho⟩, pick.entry,
        placed_of_mem_records hm (hpicks pick hpick).1 ho, hacc⟩ hslot
    refine hno e ?_
    rw [materialisePlan, hcancel]
    rfl
  · intro hmat e
    have hacc : ∀ o ∈ picks.flatMap (ctx.records lbaMap liveHashes), ∀ entry,
        ctx.Placed entry o → ctx.Accepted entry o := by
      intro o ho entry hentry
      obtain ⟨pick, hpick, ho⟩ := mem_flatMap.mp ho
      obtain rfl := (placed_of_mem_records hm (hpicks pick hpick).1 ho).unique hentry
      exact (hmat pick hpick).accepted (emitted_of_mem_emitOutput hm ho)
    obtain ⟨st', hok⟩ := hr.exists_applyOutputs hplaced hslot hacc
    rw [materialisePlan, hok]
    simp [Except.map]

end MaterialiseCtx

/-! ## A reference to a recipe -/

namespace ReferenceToDelta

/-- Bodies stored raw; a delta blob is the body itself. -/
def codecs : Codecs where
  blake3 b := BitVec.ofNat 256 (b.headD 0).toNat
  storedHash _ := 0
  decode _ b := .ok b
  compressBody _ _ := .ok none
  applyDelta _ blob := .ok blob

/-- Two blocks for hash 1, one for any other. -/
def plaintext (h : Hash) : Bytes :=
  List.replicate ((if h = 1 then 2 else 1) * BLOCK_BYTES) (UInt8.ofNat h.toNat)

/-- A body held inline. -/
def located (u : Ulid) (h : Hash) : ExtentLocation where
  segmentId := u
  bodyOffset := 0
  bodyLength := 0
  codec := .none
  bodySource := .local
  bodySectionStart := 0
  inlineData := some (plaintext h)

/-- Hash 1 is a recipe against hash 2, which is in the data map with hash 3. -/
def index : ExtentIndex :=
  ExtentIndex.recordSources
    { ExtentIndex.new with
      inner := (AList.insert 2 (located 20 2) ∅).insert 3 (located 11 3)
      deltas := AList.insert 1 ⟨30, 0, .cached, [⟨2, 0, 8192, 0⟩]⟩ ∅ } 30 1 [2]

/-- Hash 1 has its own body in the data map. -/
def homed : ExtentIndex := { index with inner := index.inner.insert 1 (located 30 1) }

/-- Segment 10 refers to hash 1 on two blocks, and segment 11 has overwritten the second. -/
def lbaMap : LbaMap := (LbaMap.new.insertInner 0 2 0 1 10).insertInner 1 1 0 3 11

/-- Two blocks that refer to hash 1. -/
def reference : SegmentEntry := .newDedupRef 1 0 2

/-- Segment 10 is the input, over an extent index. -/
def ctx (x : ExtentIndex) : MaterialiseCtx where
  codecs := codecs
  inputStates s := if s = 10 then some ⟨[reference], fun _ => none, [], 0, 0⟩ else none
  extentIndex := x
  resolver :=
    ⟨fun _ _ _ => .error "", fun _ => none, fun _ => .error "", fun _ _ _ => .error ""⟩
  allowJournal := false

/-- The reference, in segment 10. -/
def pick : Pick := ⟨10, 0, reference⟩

/-- The hashes claimed and the source named. -/
def liveHashes : Finset Hash := {1, 2, 3}

theorem lbaMap_wf : lbaMap.Wf :=
  ((LbaMap.inv_new.insertInner (by decide) 0 1 10).insertInner (by decide) 0 3 11).wf

theorem entry_of_hasEntry {x : ExtentIndex} {input : Ulid} {entryIdx : ℕ} {state : InputState}
    {entry : SegmentEntry} (h : (ctx x).HasEntry input entryIdx state entry) :
    entry = reference := by
  obtain ⟨hstate, hentry⟩ := h
  simp only [ctx] at hstate
  split_ifs at hstate
  obtain rfl := Option.some.inj hstate
  have hmem := mem_of_getElem? hentry
  exact mem_singleton.mp hmem

/-- The input holds one reference, so only what the data map locates has to be readable. -/
theorem readable {x : ExtentIndex}
    (hx : ∀ h loc, x.lookup h = some loc → ∃ u, loc = located u h) :
    (ctx x).Readable plaintext where
  codecs := ⟨fun _ => rfl, fun h => absurd h (by simp [ctx, codecs]), fun _ _ => ⟨none, rfl⟩⟩
  located := by
    intro h loc hloc
    obtain ⟨u, rfl⟩ := hx h loc hloc
    rfl
  stored h hbody := by rw [entry_of_hasEntry h] at hbody; exact absurd hbody (by decide)
  options h hdelta := by rw [entry_of_hasEntry h] at hdelta; exact absurd hdelta (by decide)
  blobs h hdelta := by rw [entry_of_hasEntry h] at hdelta; exact absurd hdelta (by decide)
  hashed h howns := by rw [entry_of_hasEntry h] at howns; exact absurd howns (by decide)
  sized h _ _ := by
    rw [entry_of_hasEntry h]
    simp [plaintext, reference, SegmentEntry.newDedupRef]

theorem located_index (h : Hash) (loc : ExtentLocation) (hloc : index.lookup h = some loc) :
    ∃ u, loc = located u h := by
  have hinner : index.inner = (AList.insert 2 (located 20 2) ∅).insert 3 (located 11 3) := rfl
  rw [ExtentIndex.lookup, hinner] at hloc
  by_cases h3 : h = 3
  · rw [h3] at hloc
    exact ⟨11, by rw [h3]; exact (Option.some.inj hloc).symm⟩
  rw [lookup_insert_ne h3] at hloc
  by_cases h2 : h = 2
  · rw [h2] at hloc
    exact ⟨20, by rw [h2]; exact (Option.some.inj hloc).symm⟩
  rw [lookup_insert_ne h2] at hloc
  cases hloc

theorem located_homed (h : Hash) (loc : ExtentLocation) (hloc : homed.lookup h = some loc) :
    ∃ u, loc = located u h := by
  rw [ExtentIndex.lookup, homed] at hloc
  by_cases h1 : h = 1
  · rw [h1] at hloc
    exact ⟨30, by rw [h1]; exact (Option.some.inj hloc).symm⟩
  rw [lookup_insert_ne h1] at hloc
  exact located_index h loc hloc

/-- The reference is partly live, whatever the extent index holds. -/
theorem classify_pick (x : ExtentIndex) : (ctx x).classify lbaMap liveHashes pick =
    .partialDeath [⟨1, 0, 1, 0, 10⟩] false :=
  rfl

end ReferenceToDelta

open ReferenceToDelta in
/-- A reference to a hash held as a recipe, with one of its two blocks overwritten. Every claim
resolves, every recipe has its source, every body can be read, and the plan cancels. -/
theorem cancels_reference_to_delta :
    lbaMap.ClaimsResolve index ∧ index.DeltasResolve ∧ (ctx index).Readable plaintext ∧
      (ctx index).Holds pick ∧ (ctx index).Rewrites lbaMap liveHashes pick ∧
      materialisePlan ⟨40, [pick].flatMap ((ctx index).records lbaMap liveHashes)⟩ (ctx index) =
        .error (.cancel (.unresolvableHash (.notInIndex 1))) :=
  ⟨by decide, by decide, readable located_index, ⟨_, rfl, rfl⟩,
    ⟨by decide, .inr (.inr ⟨_, _, classify_pick index⟩)⟩, rfl⟩

open ReferenceToDelta in
/-- The same reference, with the body in the data map. -/
theorem not_cancels_reference_to_data :
    ¬ ∃ e, materialisePlan ⟨40, [pick].flatMap ((ctx homed).records lbaMap liveHashes)⟩
      (ctx homed) = .error (.cancel e) := by
  rintro ⟨e, he⟩
  refine (MaterialiseCtx.not_cancels_iff lbaMap_wf (readable located_homed) ?_ 40).mpr ?_ e he
  · intro p hp
    rw [mem_singleton.mp hp]
    exact ⟨⟨_, rfl, rfl⟩, by decide, .inr (.inr ⟨_, _, classify_pick homed⟩)⟩
  · intro p hp
    rw [mem_singleton.mp hp]
    exact ⟨fun h => absurd h (by decide), fun _ _ => rfl⟩

end Elide
