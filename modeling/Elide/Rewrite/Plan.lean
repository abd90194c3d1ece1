import Elide.Rewrite.Classify
import Mathlib.Data.List.Sort

/-!
# Rewrite plans

A plan says, record by record, what the output segment of a rewrite is made of. Two passes emit
plans from the same classification. The volume's own repack turns each class into its records
(`emitPlanOutputs`). The coordinator's compaction first collects the live entries of a segment,
sits a segment out when a partly dead Delta of it cannot be read, and emits from what is left
(`compactSegment`).

The coordinator also loads the inline bytes of an entry and adds up sizes to choose its candidates;
neither reaches the plan.

## Main results

* `emitted_of_mem_emitOutput` — a record is one of the few `Emitted` lists
* `exists_emitOutput_claiming`, `exists_emitOutput_carrying` — a live block and a live home have
  their records
* `flatMap_compactEntry` — the coordinator's records of an entry are the volume's
-/

namespace Elide

open List EntryKind SegmentEntry

/-- One record of a plan. -/
inductive PlanOutput where
  /-- Pass an input entry through. -/
  | keep (input : Ulid) (entryIdx : ℕ)
  /-- A fresh Zero, in place of the input entry's span. -/
  | zeroSplit (input : Ulid) (entryIdx startLba lbaLength : ℕ)
  /-- The input entry's body without its claim. -/
  | canonical (input : Ulid) (entryIdx : ℕ)
  /-- A fresh Data entry for one surviving sub-run. -/
  | run (input : Ulid) (entryIdx payloadBlockOffset startLba lbaLength : ℕ)
  /-- Consume the input and emit nothing. -/
  | drop (input : Ulid)
  deriving DecidableEq, Repr

/-- Full plan for one compacted segment. -/
structure RewritePlan where
  newUlid : Ulid
  outputs : List PlanOutput
  deriving DecidableEq, Repr

namespace PlanOutput

/-- The input ULID a record references. -/
def input : PlanOutput → Ulid
  | keep input _ | zeroSplit input _ _ _ | canonical input _ | run input _ _ _ _ | drop input =>
    input

/-- The range the record's entry claims, given the input entry. -/
def range (entry : SegmentEntry) : PlanOutput → ℕ × ℕ
  | keep _ _ => if entry.kind.isCanonicalOnly then (0, 0) else (entry.startLba, entry.lbaLength)
  | zeroSplit _ _ startLba lbaLength | run _ _ _ startLba lbaLength => (startLba, lbaLength)
  | canonical _ _ | drop _ => (0, 0)

/-- The record passes the input entry's body or recipe on whole. -/
def CarriesWhole : PlanOutput → Prop
  | keep _ _ | canonical _ _ => True
  | _ => False

/-- The record's entry claims the block. -/
def Claims (o : PlanOutput) (entry : SegmentEntry) (x : ℕ) : Prop :=
  (o.range entry).1 ≤ x ∧ x < (o.range entry).1 + (o.range entry).2

end PlanOutput

/-- Sorted, deduplicated list of input ULIDs referenced by the plan's records. -/
def RewritePlan.inputs (plan : RewritePlan) : List Ulid :=
  (plan.outputs.map PlanOutput.input).dedup.insertionSort (· ≤ ·)

/-- The record of one surviving sub-run of a partly dead entry. -/
def runOutput (input : Ulid) (entryIdx : ℕ) (r : ExtentRead) : PlanOutput :=
  .run input entryIdx r.payloadBlockOffset r.rangeStart (r.rangeEnd - r.rangeStart)

/-! ## The volume's repack -/

/-- The records of one classified entry. -/
def emitOutput (segUlid : Ulid) (entryIdx : ℕ) : EntryClassification → List PlanOutput
  | .fullyLive => [.keep segUlid entryIdx]
  | .demoteToCanonical => [.canonical segUlid entryIdx]
  | .zeroSubRuns runs =>
    runs.map fun r => .zeroSplit segUlid entryIdx r.rangeStart (r.rangeEnd - r.rangeStart)
  | .partialDeath liveRuns emitCanonical =>
    (if emitCanonical then [.canonical segUlid entryIdx] else []) ++
      liveRuns.map (runOutput segUlid entryIdx)
  | .deferUnresolvableDelta => [.keep segUlid entryIdx]
  | .dropAndRemoveHash | .drop => []

/-- The records of a segment's classified entries, in entry order. -/
def emitPlanOutputs (segUlid : Ulid) (classifications : List EntryClassification) :
    List PlanOutput :=
  classifications.zipIdx.flatMap fun (action, entryIdx) => emitOutput segUlid entryIdx action

/-! ## The coordinator's compaction -/

/-- An entry of a candidate that has something to emit. -/
structure LiveEntry where
  entry : SegmentEntry
  entryIdx : ℕ
  partialDeathRuns : Option (List ExtentRead)
  deriving DecidableEq

/-- What the compaction knows of one segment. -/
structure SegmentStats where
  ulid : Ulid
  liveEntries : List LiveEntry
  removedHashes : List Hash
  /-- A partly dead Delta of the segment cannot be read. -/
  hasPartialDeath : Bool
  deriving DecidableEq

namespace SegmentEntry

/-- The body of an entry whose claim has been superseded. -/
def intoCanonical (e : SegmentEntry) : SegmentEntry :=
  { e with
    kind :=
      match e.kind with
      | .inline | .canonicalInline => .canonicalInline
      | .delta | .canonicalDelta => .canonicalDelta
      | _ => .canonicalData
    startLba := 0
    lbaLength := 0 }

end SegmentEntry

/-- The live entries one classified entry leaves. -/
def liveEntriesOf (entry : SegmentEntry) (entryIdx : ℕ) : EntryClassification → List LiveEntry
  | .fullyLive => [⟨entry, entryIdx, none⟩]
  | .demoteToCanonical => [⟨entry.intoCanonical, entryIdx, none⟩]
  | .zeroSubRuns runs =>
    runs.map fun ext =>
      ⟨{ entry with startLba := ext.rangeStart, lbaLength := ext.rangeEnd - ext.rangeStart },
        entryIdx, none⟩
  | .partialDeath liveRuns _ => [⟨entry, entryIdx, some liveRuns⟩]
  | .deferUnresolvableDelta => [⟨entry, entryIdx, none⟩]
  | .dropAndRemoveHash | .drop => []

/-- Classify a segment's entries and collect what of it is live. -/
def collectStats (entries : List SegmentEntry) (ctx : ClassifyCtx) : SegmentStats where
  ulid := ctx.segmentId
  liveEntries := entries.zipIdx.flatMap fun (entry, entryIdx) =>
    liveEntriesOf entry entryIdx (classifyEntry entry ctx)
  removedHashes := (entries.filter fun entry =>
    decide (classifyEntry entry ctx = .dropAndRemoveHash)).map hash
  hasPartialDeath := entries.any fun entry =>
    decide (classifyEntry entry ctx = .deferUnresolvableDelta)

/-- The records of one live entry of a candidate. -/
def compactEntry (inputUlid : Ulid) (liveHashes : Finset Hash) (l : LiveEntry) : List PlanOutput :=
  match l.partialDeathRuns with
  | some runs =>
    let emitCanonical := decide (l.entry.kind = .data ∨ l.entry.kind = .inline ∨
      l.entry.kind = .delta) && decide (l.entry.hash ∈ liveHashes)
    (if emitCanonical then [.canonical inputUlid l.entryIdx] else []) ++
      runs.map (runOutput inputUlid l.entryIdx)
  | none =>
    match l.entry.kind with
    | .zero => [.zeroSplit inputUlid l.entryIdx l.entry.startLba l.entry.lbaLength]
    | .canonicalData | .canonicalInline | .canonicalDelta => [.canonical inputUlid l.entryIdx]
    | _ => [.keep inputUlid l.entryIdx]

/-- The records of one candidate; one with nothing live is consumed whole. -/
def compactSegment (liveHashes : Finset Hash) (candidate : SegmentStats) : List PlanOutput :=
  if candidate.liveEntries.isEmpty then [.drop candidate.ulid]
  else candidate.liveEntries.flatMap (compactEntry candidate.ulid liveHashes)

/-- The plan over the candidates of a pass. -/
def compactSegments (candidates : List SegmentStats) (newUlid : Ulid) (liveHashes : Finset Hash) :
    RewritePlan where
  newUlid := newUlid
  outputs := candidates.flatMap (compactSegment liveHashes)

/-- The segments a pass may compact: those that need no deferral. -/
def eligibleStats (allStats : List SegmentStats) : List SegmentStats :=
  allStats.filter fun s => !s.hasPartialDeath

/-! ## What is emitted -/

/-- The entry claims its range with a payload behind it. -/
def SegmentEntry.ClaimsBody (entry : SegmentEntry) : Prop :=
  entry.kind ≠ .zero ∧ entry.kind.isCanonicalOnly = false

instance (entry : SegmentEntry) : Decidable entry.ClaimsBody :=
  inferInstanceAs (Decidable (_ ∧ _))

/-- The records an entry can give rise to. -/
inductive Emitted (ctx : ClassifyCtx) (entry : SegmentEntry) (entryIdx : ℕ) : PlanOutput → Prop
  /-- A surviving sub-run of a Zero. -/
  | zero {r : ExtentRead} (hkind : entry.kind = .zero) (hr : r ∈ ctx.liveRuns entry) :
    Emitted ctx entry entryIdx
      (.zeroSplit ctx.segmentId entryIdx r.rangeStart (r.rangeEnd - r.rangeStart))
  /-- A canonical something still resolves against, passed through … -/
  | keepCanonical (hcanon : entry.kind.isCanonicalOnly = true) :
    Emitted ctx entry entryIdx (.keep ctx.segmentId entryIdx)
  /-- … or emitted as one. -/
  | canonicalCanonical (hcanon : entry.kind.isCanonicalOnly = true) :
    Emitted ctx entry entryIdx (.canonical ctx.segmentId entryIdx)
  | keepLive (hclaims : entry.ClaimsBody) (hlive : ctx.AllLive entry) :
    Emitted ctx entry entryIdx (.keep ctx.segmentId entryIdx)
  /-- A partly dead Delta that cannot be read, passed through whole. -/
  | keepDeferred (hkind : entry.kind = .delta) (hlive : ctx.PartlyLive entry)
      (hsource : ctx.hasResolvableSource entry = false) :
    Emitted ctx entry entryIdx (.keep ctx.segmentId entryIdx)
  /-- The body of an entry with a dead block, for those who still resolve against it. -/
  | canonical (hclaims : entry.ClaimsBody) (hkind : entry.kind ≠ .dedupRef) :
    Emitted ctx entry entryIdx (.canonical ctx.segmentId entryIdx)
  | run {r : ExtentRead} (hclaims : entry.ClaimsBody) (hlive : ctx.PartlyLive entry)
      (hsource : entry.kind = .delta → ctx.hasResolvableSource entry = true)
      (hr : r ∈ ctx.liveRuns entry) :
    Emitted ctx entry entryIdx (runOutput ctx.segmentId entryIdx r)

section Emitted

variable {ctx : ClassifyCtx} {entry : SegmentEntry} {entryIdx : ℕ} {o : PlanOutput}

/-- The three ways a claim with a payload is classified. -/
theorem SegmentEntry.ClaimsBody.cases (hclaims : entry.ClaimsBody) (hm : ctx.lbaMap.Wf) :
    (ctx.AllLive entry ∧ classifyEntry entry ctx = .fullyLive) ∨
    (¬ ctx.AllLive entry ∧ ctx.NoneLive entry ∧ classifyEntry entry ctx =
      if (entry.kind = .data ∨ entry.kind = .inline ∨ entry.kind = .delta) ∧
          ctx.ownsHome entry ∧ entry.hash ∈ ctx.liveHashes then .demoteToCanonical
      else if ctx.ownsHome entry then .dropAndRemoveHash
      else .drop) ∨
    (ctx.PartlyLive entry ∧ classifyEntry entry ctx =
      if entry.kind = .delta ∧ ctx.hasResolvableSource entry = false then .deferUnresolvableDelta
      else .partialDeath (ctx.liveRuns entry)
        (decide (entry.kind ≠ .dedupRef ∧ entry.hash ∈ ctx.liveHashes))) := by
  obtain ⟨hzero, hcanon⟩ := hclaims
  by_cases hall : ctx.AllLive entry
  · exact .inl ⟨hall, classifyEntry_of_allLive hm hzero hcanon hall⟩
  · by_cases hnone : ctx.NoneLive entry
    · exact .inr (.inl ⟨hall, hnone, classifyEntry_of_noneLive hm hzero hcanon hall hnone⟩)
    · have hpart := ctx.partlyLive_iff.mpr ⟨hall, hnone⟩
      exact .inr (.inr ⟨hpart, classifyEntry_of_partlyLive hm hzero hcanon hpart⟩)

theorem emitted_of_mem_emitOutput (hm : ctx.lbaMap.Wf)
    (ho : o ∈ emitOutput ctx.segmentId entryIdx (classifyEntry entry ctx)) :
    Emitted ctx entry entryIdx o := by
  by_cases hzero : entry.kind = .zero
  · rw [classifyEntry_zero hzero] at ho
    obtain ⟨r, hr, rfl⟩ := mem_map.mp ho
    exact .zero hzero hr
  by_cases hcanon : entry.kind.isCanonicalOnly = true
  · rw [classifyEntry_canonicalOnly hcanon] at ho
    split_ifs at ho
    · rw [mem_singleton.mp ho]
      exact .keepCanonical hcanon
    · simp [emitOutput] at ho
    · simp [emitOutput] at ho
  have hclaims : entry.ClaimsBody := ⟨hzero, by simpa using hcanon⟩
  rcases hclaims.cases hm with ⟨hlive, heq⟩ | ⟨-, -, heq⟩ | ⟨hlive, heq⟩
  · rw [heq] at ho
    rw [mem_singleton.mp ho]
    exact .keepLive hclaims hlive
  · rw [heq] at ho
    split_ifs at ho with hdemote
    · rw [mem_singleton.mp ho]
      refine .canonical hclaims fun hkind => ?_
      rw [hkind] at hdemote
      exact absurd hdemote.1 (by decide)
    · simp [emitOutput] at ho
    · simp [emitOutput] at ho
  · rw [heq] at ho
    split_ifs at ho with hdefer
    · rw [mem_singleton.mp ho]
      exact .keepDeferred hdefer.1 hlive hdefer.2
    · rcases mem_append.mp ho with ho | ho
      · split_ifs at ho with hemit
        · rw [mem_singleton.mp ho]
          exact .canonical hclaims (of_decide_eq_true hemit).1
        · simp at ho
      · obtain ⟨r, hr, rfl⟩ := mem_map.mp ho
        exact .run hclaims hlive (fun hkind => by simpa [hkind] using hdefer) hr

theorem claims_runOutput_iff {input : Ulid} {r : ExtentRead} {x : ℕ} :
    (runOutput input entryIdx r).Claims entry x ↔ r.Covers x := by
  show r.rangeStart ≤ x ∧ x < r.rangeStart + (r.rangeEnd - r.rangeStart) ↔
    r.rangeStart ≤ x ∧ x < r.rangeEnd
  omega

theorem claims_zeroSplit_iff {input : Ulid} {r : ExtentRead} {x : ℕ} :
    (PlanOutput.zeroSplit input entryIdx r.rangeStart (r.rangeEnd - r.rangeStart)).Claims entry x ↔
      r.Covers x := by
  show r.rangeStart ≤ x ∧ x < r.rangeStart + (r.rangeEnd - r.rangeStart) ↔
    r.rangeStart ≤ x ∧ x < r.rangeEnd
  omega

/-- **No live block is left out.** -/
theorem exists_emitOutput_claiming (hm : ctx.lbaMap.Wf) (hcanon : entry.kind.isCanonicalOnly = false)
    {x : ℕ} (hx : entry.Covers x) (hlive : ctx.Live entry x) (entryIdx : ℕ) :
    ∃ o ∈ emitOutput ctx.segmentId entryIdx (classifyEntry entry ctx), o.Claims entry x := by
  have hkeep : (PlanOutput.keep ctx.segmentId entryIdx).Claims entry x := by
    rw [PlanOutput.Claims, PlanOutput.range, if_neg (by simp [hcanon])]
    exact hx
  obtain ⟨r, hr, hcov⟩ := (ctx.live_iff_exists_liveRun hm hx).mp hlive
  by_cases hzero : entry.kind = .zero
  · rw [classifyEntry_zero hzero]
    exact ⟨_, mem_map_of_mem hr, claims_zeroSplit_iff.mpr hcov⟩
  have hclaims : entry.ClaimsBody := ⟨hzero, hcanon⟩
  rcases hclaims.cases hm with ⟨-, heq⟩ | ⟨-, hnone, -⟩ | ⟨-, heq⟩
  · rw [heq]
    exact ⟨_, mem_singleton_self _, hkeep⟩
  · exact absurd hlive (hnone x hx)
  · rw [heq]
    split_ifs
    · exact ⟨_, mem_singleton_self _, hkeep⟩
    · exact ⟨_, mem_append_right _ (mem_map_of_mem hr), claims_runOutput_iff.mpr hcov⟩

/-- **No live home is left out.** -/
theorem exists_emitOutput_carrying (hm : ctx.lbaMap.Wf) (howns : entry.kind.ownsExtentHash = true)
    (hhome : ctx.ownsHome entry = true) (hlive : entry.hash ∈ ctx.liveHashes) (entryIdx : ℕ) :
    ∃ o ∈ emitOutput ctx.segmentId entryIdx (classifyEntry entry ctx), o.CarriesWhole := by
  by_cases hcanon : entry.kind.isCanonicalOnly = true
  · rw [classifyEntry_canonicalOnly hcanon, if_pos hlive]
    exact ⟨_, mem_singleton_self _, trivial⟩
  have hkind : entry.kind = .data ∨ entry.kind = .inline ∨ entry.kind = .delta := by
    cases hk : entry.kind <;> simp_all [ownsExtentHash, isCanonicalOnly]
  have hclaims : entry.ClaimsBody := by
    refine ⟨fun hzero => ?_, by simpa using hcanon⟩
    rw [hzero] at hkind
    exact absurd hkind (by decide)
  have href : entry.kind ≠ .dedupRef := by
    intro href
    rw [href] at hkind
    exact absurd hkind (by decide)
  rcases hclaims.cases hm with ⟨-, heq⟩ | ⟨-, -, heq⟩ | ⟨-, heq⟩
  · rw [heq]
    exact ⟨_, mem_singleton_self _, trivial⟩
  · rw [heq, if_pos ⟨hkind, hhome, hlive⟩]
    exact ⟨_, mem_singleton_self _, trivial⟩
  · rw [heq]
    split_ifs
    · exact ⟨_, mem_singleton_self _, trivial⟩
    · refine ⟨.canonical ctx.segmentId entryIdx, mem_append_left _ ?_, trivial⟩
      rw [if_pos (decide_eq_true ⟨href, hlive⟩)]
      exact mem_singleton_self _

/-- The coordinator's records of an entry: the volume's, but for a live canonical, which is emitted
as one and not passed through. -/
def compactRecords (ctx : ClassifyCtx) (entry : SegmentEntry) (entryIdx : ℕ) : List PlanOutput :=
  if entry.kind.isCanonicalOnly then
    if entry.hash ∈ ctx.liveHashes then [.canonical ctx.segmentId entryIdx] else []
  else emitOutput ctx.segmentId entryIdx (classifyEntry entry ctx)

/-- **The two passes emit the same records.** -/
theorem flatMap_compactEntry (hm : ctx.lbaMap.Wf) :
    (liveEntriesOf entry entryIdx (classifyEntry entry ctx)).flatMap
        (compactEntry ctx.segmentId ctx.liveHashes) = compactRecords ctx entry entryIdx := by
  rw [compactRecords]
  by_cases hzero : entry.kind = .zero
  · rw [classifyEntry_zero hzero, if_neg (by rw [hzero]; decide), liveEntriesOf, flatMap_map,
      emitOutput, map_eq_flatMap]
    simp [compactEntry, hzero]
  by_cases hcanon : entry.kind.isCanonicalOnly = true
  · rw [classifyEntry_canonicalOnly hcanon]
    split_ifs
    · cases hk : entry.kind <;> simp_all [liveEntriesOf, compactEntry, isCanonicalOnly]
    · rfl
    · rfl
  rw [if_neg hcanon]
  have hclaims : entry.ClaimsBody := ⟨hzero, by simpa using hcanon⟩
  have hkeep : compactEntry ctx.segmentId ctx.liveHashes ⟨entry, entryIdx, none⟩ =
      [.keep ctx.segmentId entryIdx] := by
    unfold compactEntry
    cases hk : entry.kind <;> simp_all [isCanonicalOnly]
  rcases hclaims.cases hm with ⟨-, heq⟩ | ⟨-, -, heq⟩ | ⟨-, heq⟩
  · rw [heq, liveEntriesOf, flatMap_singleton, hkeep]
    rfl
  · rw [heq]
    split_ifs with hdemote
    · rcases hdemote.1 with hk | hk | hk <;>
        simp [liveEntriesOf, compactEntry, intoCanonical, hk, emitOutput]
    · rfl
    · rfl
  · rw [heq]
    split_ifs
    · rw [liveEntriesOf, flatMap_singleton, hkeep]
      rfl
    · have hemit : (decide (entry.kind = .data ∨ entry.kind = .inline ∨ entry.kind = .delta) &&
          decide (entry.hash ∈ ctx.liveHashes)) =
          decide (entry.kind ≠ .dedupRef ∧ entry.hash ∈ ctx.liveHashes) := by
        cases hk : entry.kind <;> simp_all [isCanonicalOnly]
      rw [liveEntriesOf, flatMap_singleton, compactEntry]
      rw [hemit]
      rfl

end Emitted

end Elide
