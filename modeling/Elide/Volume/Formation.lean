import Elide.Volume.PromoteApply
import Mathlib.Data.List.Forall2

/-!
# What staging and forming make of a write

A promote decides four things about a write: whether it becomes a DEDUP_REF, which tier its flag
puts it in, which of the two segments takes it, and whether a delta tier converts it. Where and how
its bytes are stored is decided too, and nothing that resolves a hash depends on that, so an entry
is compared with the write it came from by its `shape`.

## Main results

* `stagePendingForPromote_eq` — the two shares of a batch, write by write
* `Formation.shape_primary`, `Formation.shape_journal` — the shapes of the entries of the two
  segments
-/

namespace Elide

open List SegmentEntry PendingWrite PromoteJob EntryKind Bool

namespace SegmentEntry

/-- Everything about an entry but where and how its bytes are stored. -/
def shape (e : SegmentEntry) : SegmentEntry :=
  { e with
    codec := .none
    storedOffset := 0
    storedLength := 0
    inline := none
    deltaOptions := e.deltaOptions.map fun o => ⟨o.sourceHash, 0, 0, 0⟩ }

/-- The entry as a Delta against `source`, when there is one. -/
def against (e : SegmentEntry) (source : Option Hash) : SegmentEntry :=
  match source with
  | some source =>
    { e with kind := .delta, deltaOptions := e.deltaOptions ++ [⟨source, 0, 0, 0⟩] }
  | none => e

end SegmentEntry

/-! ## Staging -/

/-- Some write of the batch starts inside the window, so the batch is split. -/
def JournalRanges.splits (window : JournalRanges) (writes : List PendingWrite) : Bool :=
  writes.any fun write => window.contains write.entry.startLba

namespace PendingWrite

/-- The write past the minting of dedup references. -/
def classified (write : PendingWrite) (index : ExtentIndex) (wal : Ulid) : PendingWrite :=
  if write.mintsDedupRef index wal then write.toDedupRef else write

/-- The write as its segment receives it. Its flag is rewritten only where the batch is split. -/
def staged (write : PendingWrite) (writes : List PendingWrite) (index : ExtentIndex) (wal : Ulid)
    (window : JournalRanges) : PendingWrite :=
  let classified := write.classified index wal
  if window.splits writes then
    { classified with
      entry := { classified.entry with journal := window.contains write.entry.startLba } }
  else classified

variable (write : PendingWrite) (writes : List PendingWrite) (index : ExtentIndex) (wal : Ulid)
  (window : JournalRanges)

@[simp] theorem startLba_classified :
    (write.classified index wal).entry.startLba = write.entry.startLba := by
  rw [classified]
  split_ifs <;> rfl

/-- The flag plays no part in the token. -/
theorem prePromoteOffset_staged : (write.staged writes index wal window).prePromoteOffset index =
    (write.classified index wal).prePromoteOffset index := by
  rw [staged]
  split_ifs <;> rfl

end PendingWrite

section Staging

variable (writes : List PendingWrite) (index : ExtentIndex) (wal : Ulid) (window : JournalRanges)

/-- A staged write with the token taken for it. -/
def stagedWithToken (write : PendingWrite) : PendingWrite × Option ℕ :=
  (write.staged writes index wal window,
    (write.staged writes index wal window).prePromoteOffset index)

/-- **The shares of a batch.** The primary segment takes the writes that start outside the window,
the journal segment those inside, each in WAL order. -/
theorem stagePendingForPromote_eq : stagePendingForPromote writes index wal window =
      ((writes.filter fun w => !window.contains w.entry.startLba).map
          (stagedWithToken writes index wal window),
        if window.splits writes then
          some ((writes.filter fun w => window.contains w.entry.startLba).map
            (stagedWithToken writes index wal window))
        else none) := by
  have hzip : (classifyPendingDedupEntries writes index wal).zip
      (snapshotPrePromoteOffsets (classifyPendingDedupEntries writes index wal) index) =
      writes.map fun w => (w.classified index wal, (w.classified index wal).prePromoteOffset index) := by
    rw [snapshotPrePromoteOffsets, classifyPendingDedupEntries, map_map, zip_map']
    rfl
  have htoken : ∀ w : PendingWrite, stagedWithToken writes index wal window w =
      (w.staged writes index wal window, (w.classified index wal).prePromoteOffset index) := by
    intro w
    rw [stagedWithToken, w.prePromoteOffset_staged]
  have hany : ((writes.map fun w => (w.classified index wal,
      (w.classified index wal).prePromoteOffset index)).any fun p =>
        window.contains p.1.entry.startLba) = window.splits writes := by
    simp only [any_map, Function.comp_def, startLba_classified]
    rfl
  rw [stagePendingForPromote, hzip, splitJournal, hany]
  cases hsplit : window.splits writes with
  | false =>
    -- the batch stays whole: no write is filtered out and no flag moves
    rw [if_pos (by simp), filter_eq_self.mpr]
    · refine congrArg (·, none) (map_congr_left fun w _ => ?_)
      rw [htoken, staged, if_neg (by simp [hsplit])]
    · intro w hw
      have hout := any_eq_false.mp hsplit w hw
      rw [not_eq_true] at hout
      rw [hout]
      rfl
  | true =>
    have hnonempty : window.isEmpty = false := by
      refine eq_false_iff.mpr fun hempty => ?_
      obtain ⟨w, -, hw⟩ := any_eq_true.mp hsplit
      rw [JournalRanges.contains_of_isEmpty hempty] at hw
      cases hw
    have hmark : ∀ w : PendingWrite, stagedWithToken writes index wal window w =
        (⟨{ (w.classified index wal).entry with
            journal := window.contains (w.classified index wal).entry.startLba },
          (w.classified index wal).walBodyOffset⟩,
          (w.classified index wal).prePromoteOffset index) := by
      intro w
      rw [htoken, staged, if_pos (by simp [hsplit]), w.startLba_classified]
    rw [if_neg (by simp [hnonempty]), map_congr_left fun w _ => hmark w,
      map_congr_left fun w _ => hmark w]
    simp only [map_map, filter_map, Function.comp_def, startLba_classified, if_true]

end Staging

/-! ## Forming -/

/-- `q` is what a tier that chooses by `choose` makes of `p`. -/
inductive TierStep (choose : PendingEntry → Option (Hash × ℕ × StoredHash)) (p : PendingEntry) :
    PendingEntry → Prop
  | keep (h : choose p = none) : TierStep choose p p
  | convert {source : Hash} {blob : ℕ × StoredHash} (deltaOffset : ℕ)
      (h : choose p = some (source, blob)) : TierStep choose p (p.convert source deltaOffset blob)

theorem forall₂_deltaPendings (choose : PendingEntry → Option (Hash × ℕ × StoredHash))
    (deltaLen : ℕ) (ps : List PendingEntry) :
    List.Forall₂ (TierStep choose) ps (deltaPendings choose deltaLen ps).1 := by
  induction ps generalizing deltaLen with
  | nil => exact List.Forall₂.nil
  | cons p ps ih =>
    rw [deltaPendings]
    cases hp : choose p with
    | none => exact List.Forall₂.cons (.keep hp) (ih deltaLen)
    | some c => exact List.Forall₂.cons (.convert deltaLen hp) (ih (deltaLen + c.2.1))

theorem TierStep.shape {choose : PendingEntry → Option (Hash × ℕ × StoredHash)}
    {p q : PendingEntry} (h : TierStep choose p q) :
    q.entry.shape = p.entry.shape.against ((choose p).map Prod.fst) := by
  cases h with
  | keep h => rw [h]; rfl
  | convert deltaOffset h =>
    rw [h]
    simp [PendingEntry.convert, SegmentEntry.shape, SegmentEntry.against]

/-- Offsets are no part of a shape. -/
theorem shape_assignOffsets (inlineCursor bodyCursor : ℕ) (es : List SegmentEntry) :
    (assignOffsets inlineCursor bodyCursor es).map shape = es.map shape := by
  induction es generalizing inlineCursor bodyCursor with
  | nil => rfl
  | cons e es ih =>
    rw [assignOffsets]
    split <;> exact congrArg (e.shape :: ·) (ih _ _)

private theorem forall₂_comp {α β γ : Type*} {R : α → β → Prop} {S : β → γ → Prop} {as : List α}
    {bs : List β} {cs : List γ} (hr : List.Forall₂ R as bs) (hs : List.Forall₂ S bs cs) :
    List.Forall₂ (fun a c => ∃ b, R a b ∧ S b c) as cs := by
  induction hr generalizing cs with
  | nil => cases hs; exact List.Forall₂.nil
  | cons hab _ ih => cases hs with | cons hbc hs => exact List.Forall₂.cons ⟨_, hab, hbc⟩ (ih hs)

namespace Formation

variable (f : Formation)

/-- Materialising a body changes how it is stored, and nothing else. -/
theorem shape_materialise (write : PendingWrite) :
    (f.materialise write).entry.shape = write.entry.shape := by
  rw [materialise]
  cases write.walBodyOffset with
  | none => rfl
  | some off =>
    split_ifs <;> rfl

variable {p : PendingEntry} {reserved : List Hash}

theorem priorSource_eq_none {index : ExtentIndex} {prior : ℕ → Option Hash}
    (h : p.entry.kind ≠ .data) : f.priorSource index prior reserved p = none :=
  if_neg fun hcon => h hcon.1

variable {maps : Maps}

theorem resemblanceSource_eq_none (h : p.entry.kind ≠ .data) :
    f.resemblanceSource maps reserved p = none :=
  if_neg fun hcon => h hcon.1

/-- The source the delta tiers convert `p` against, as an entry of `batch`. -/
def tierSource (maps : Maps) (batch : List PendingEntry) (p : PendingEntry) : Option Hash :=
  if f.deltaEnabled then
    match f.prior with
    | some prior =>
      let reserved := reservedDeltaSources prior batch
      ((f.priorSource maps.extentIndex prior reserved p).or
        (f.resemblanceSource maps reserved p)).map Prod.fst
    | none => (f.resemblanceSource maps [] p).map Prod.fst
  else none

theorem tierSource_eq_none {batch : List PendingEntry} (h : p.entry.kind ≠ .data) :
    f.tierSource maps batch p = none := by
  rw [tierSource]
  split_ifs
  · cases f.prior with
    | none => rw [f.resemblanceSource_eq_none h]; rfl
    | some prior =>
      dsimp only
      rw [f.priorSource_eq_none h, f.resemblanceSource_eq_none h]
      rfl
  · rfl

/-- The two tiers in a row: what the first converts the second leaves alone. -/
theorem shape_tiers {choose : PendingEntry → Option (Hash × ℕ × StoredHash)} {q r : PendingEntry}
    (hq : TierStep choose p q) (hr : TierStep (f.resemblanceSource maps reserved) q r) :
    r.entry.shape = p.entry.shape.against
      (((choose p).or (f.resemblanceSource maps reserved p)).map Prod.fst) := by
  rw [hr.shape, hq.shape]
  cases hq with
  | keep h => rw [h]; rfl
  | convert deltaOffset h =>
    rw [h]
    rfl

theorem shape_deltaTiers (maps : Maps) (ps : List PendingEntry) :
    ((f.deltaTiers maps ps).1.map fun p => p.entry.shape) =
      ps.map fun p => p.entry.shape.against (f.tierSource maps ps p) := by
  -- both lists have the length of the batch, so they are compared entry by entry
  have hmap : ∀ {qs : List PendingEntry} {F : PendingEntry → SegmentEntry},
      List.Forall₂ (fun p q => q.entry.shape = F p) ps qs →
      (qs.map fun q => q.entry.shape) = ps.map F := by
    intro qs F h
    induction h with
    | nil => rfl
    | cons hpq _ ih => rw [map_cons, map_cons, hpq, ih]
  simp only [deltaTiers, tierSource]
  cases f.deltaEnabled with
  | false => rfl
  | true =>
    cases f.prior with
    | none => exact hmap ((forall₂_deltaPendings _ 0 ps).imp fun _ _ h => h.shape)
    | some prior =>
      refine hmap ?_
      have h1 := forall₂_deltaPendings
        (f.priorSource maps.extentIndex prior (reservedDeltaSources prior ps)) 0 ps
      have h2 := forall₂_deltaPendings (f.resemblanceSource maps (reservedDeltaSources prior ps))
        (f.deltaPendingsAgainstPrior maps.extentIndex prior (reservedDeltaSources prior ps) ps).2
        (f.deltaPendingsAgainstPrior maps.extentIndex prior (reservedDeltaSources prior ps) ps).1
      refine (forall₂_comp h1 h2).imp ?_
      rintro _ _ ⟨_, hq, hr⟩
      exact f.shape_tiers hq hr

end Formation

/-! ## A job, write by write -/

namespace PromoteJob

variable (job : PromoteJob) (write : PendingWrite)

/-- The write starts inside the window the job carries. -/
def inside : Bool := job.journalRanges.contains write.entry.startLba

/-- Some write starts inside the window. -/
def splits : Bool := job.journalRanges.splits job.pending

/-- The write as the promote stages it. -/
def stagedWrite : PendingWrite :=
  write.staged job.pending job.layers.materialised.extentIndex job.oldWalUlid job.journalRanges

/-- The write has a body and is not minted as a DEDUP_REF. -/
def keepsBody : Bool :=
  write.entry.kind.hasBodyBytes &&
    !write.mintsDedupRef job.layers.materialised.extentIndex job.oldWalUlid

/-- The tier formation gives a body: by the job's window if that splits the batch, by the flag of
the write path if not. -/
def inJournal : Bool :=
  if job.splits then job.inside write else write.entry.journal

/-- The token taken for a write. -/
def token : Option ℕ :=
  (job.stagedWrite write).prePromoteOffset job.layers.materialised.extentIndex

/-- The writes of the primary segment. -/
abbrev outside : List PendingWrite := job.pending.filter fun w => !job.inside w

/-- The writes of the journal segment. -/
abbrev journalShare : List PendingWrite := job.pending.filter job.inside

end PromoteJob

namespace Formation

variable (f : Formation) (job : PromoteJob)

/-- The primary segment's batch as the delta tiers see it. -/
def batch : List PendingEntry :=
  (job.pending.filter fun w => !job.inside w).map fun w => f.materialise (job.stagedWrite w)

variable (write : PendingWrite)

/-- The source a write of the job is converted against. The journal share meets no delta tier. -/
def deltaSource : Option Hash :=
  if job.inside write then none
  else f.tierSource job.layers.materialised (f.batch job) (f.materialise (job.stagedWrite write))

/-- The shape of the entry a write becomes. -/
def shapeOf : SegmentEntry :=
  (job.stagedWrite write).entry.shape.against (f.deltaSource job write)

theorem entries_primary (maps : Maps) (staged : PendingPartition × Option PendingPartition) :
    (f.writePromote job maps staged).primary.entries = assignOffsets 0 0
      ((f.deltaTiers maps (f.materialisePendingBodies (staged.1.map Prod.fst))).1.map
        PendingEntry.entry) := by
  simp only [writePromote]
  cases f.deltaTiers maps (f.materialisePendingBodies (staged.1.map Prod.fst)) with
  | mk ps deltaLen => cases ps <;> rfl

/-- **The primary segment**: one entry for each write outside the window, in WAL order. -/
theorem shape_primary : (f.executePromote job).primary.entries.map shape =
        job.outside.map (f.shapeOf job) ∧
      (f.executePromote job).primary.prePromoteOffsets = job.outside.map job.token := by
  rw [executePromote, stagePendingForPromote_eq]
  refine ⟨?_, map_map⟩
  have hbatch : f.materialisePendingBodies ((job.outside.map
      (stagedWithToken job.pending job.layers.materialised.extentIndex job.oldWalUlid
        job.journalRanges)).map Prod.fst) = f.batch job := by
    rw [materialisePendingBodies, map_map, map_map]
    rfl
  rw [entries_primary, shape_assignOffsets, map_map]
  refine (f.shape_deltaTiers _ _).trans ?_
  refine (congrArg (fun b => b.map fun p => p.entry.shape.against
    (f.tierSource job.layers.materialised b p)) hbatch).trans ?_
  rw [batch, map_map]
  refine map_congr_left fun w hw => ?_
  have hout : job.inside w = false := by simpa using (mem_filter.mp hw).2
  show (f.materialise _).entry.shape.against _ = _
  rw [shape_materialise, shapeOf, deltaSource, hout]
  rfl

/-- **The journal segment**: one entry for each write inside the window, if there is one. -/
theorem shape_journal : (job.splits = false ∧ (f.executePromote job).journal = none) ∨
    (job.splits = true ∧ ∃ part, (f.executePromote job).journal = some part ∧
      part.segmentUlid = job.journalSegmentUlid ∧
      part.entries.map shape = job.journalShare.map (f.shapeOf job) ∧
      part.prePromoteOffsets = job.journalShare.map job.token) := by
  rw [executePromote, stagePendingForPromote_eq]
  cases hsplit : job.journalRanges.splits job.pending with
  | false =>
    refine .inl ⟨hsplit, ?_⟩
    simp [writePromote]
  | true =>
    refine .inr ⟨hsplit, ?_⟩
    simp only [writePromote, if_true, Option.map_some, Option.some.injEq, exists_eq_left']
    refine ⟨trivial, ?_, map_map⟩
    rw [writeAndCommit, shape_assignOffsets, materialisePendingBodies, map_map, map_map,
      map_map, map_map]
    refine map_congr_left fun w hw => ?_
    have hin : job.inside w = true := (mem_filter.mp hw).2
    show (f.materialise _).entry.shape = _
    rw [shape_materialise, shapeOf, deltaSource, hin]
    rfl

/-! ## Tiers -/

/-- The write carries its DATA location from the WAL to the primary segment, as a body or as a
Delta. -/
def reachesData : Bool :=
  job.keepsBody write && (!job.inJournal write || (f.deltaSource job write).isSome)

/-- The write re-keys its journal body. -/
def reachesJournal : Bool :=
  job.keepsBody write && (job.inJournal write && (f.deltaSource job write).isNone)

end Formation

/-- What the write path stages: a body in the WAL, or zeros. -/
structure PendingWrite.Plain (write : PendingWrite) : Prop where
  kind : write.entry.kind = .data ∨ write.entry.kind = .inline ∨
    (write.entry.kind = .zero ∧ write.entry.hash = ZERO_HASH)
  options : write.entry.deltaOptions = []

theorem PendingWrite.Plain.not_canonical {write : PendingWrite} (hw : write.Plain) :
    write.entry.kind.isCanonicalOnly = false := by
  rcases hw.kind with h | h | h
  · rw [h]; rfl
  · rw [h]; rfl
  · rw [h.1]; rfl

namespace PromoteJob

variable {job : PromoteJob} {write : PendingWrite}

/-- A staged write keeps its hash and its range. -/
theorem stagedWrite_frame (job : PromoteJob) (write : PendingWrite) :
    (job.stagedWrite write).entry.hash = write.entry.hash ∧
      (job.stagedWrite write).entry.startLba = write.entry.startLba ∧
      (job.stagedWrite write).entry.lbaLength = write.entry.lbaLength := by
  simp only [stagedWrite, staged, classified]
  split_ifs <;> exact ⟨rfl, rfl, rfl⟩

theorem kind_stagedWrite (job : PromoteJob) (write : PendingWrite) :
    (job.stagedWrite write).entry.kind =
      if write.mintsDedupRef job.layers.materialised.extentIndex job.oldWalUlid then .dedupRef
      else write.entry.kind := by
  simp only [stagedWrite, staged, classified]
  split_ifs <;> rfl

theorem options_stagedWrite (hw : write.Plain) : (job.stagedWrite write).entry.deltaOptions = [] := by
  simp only [stagedWrite, staged, classified]
  split_ifs <;> first | rfl | exact hw.options

/-- A body that is not minted moves on as it is, up to its flag. -/
theorem stagedWrite_of_keepsBody (hk : job.keepsBody write = true) :
    (job.stagedWrite write).entry.kind = write.entry.kind ∧
      (job.stagedWrite write).entry.journal = job.inJournal write := by
  have hmint : write.mintsDedupRef job.layers.materialised.extentIndex job.oldWalUlid = false := by
    rw [keepsBody, and_eq_true] at hk
    simpa using hk.2
  refine ⟨by rw [kind_stagedWrite, hmint]; rfl, ?_⟩
  have hclass : write.classified job.layers.materialised.extentIndex job.oldWalUlid = write := by
    rw [classified, hmint]
    rfl
  rw [inJournal, splits, stagedWrite, staged, hclass]
  cases job.journalRanges.splits job.pending <;> rfl

/-- A write without a body to keep is a DEDUP_REF or zeros by now. -/
theorem stagedWrite_of_not_keepsBody (hw : write.Plain) (hk : job.keepsBody write = false) :
    (job.stagedWrite write).entry.kind = .dedupRef ∨
      ((job.stagedWrite write).entry.kind = .zero ∧ write.entry.hash = ZERO_HASH) := by
  rw [kind_stagedWrite]
  split_ifs with hmint
  · exact .inl rfl
  · rw [keepsBody, eq_false_of_ne_true hmint] at hk
    rcases hw.kind with h | h | h
    · rw [h] at hk
      exact absurd hk (by simp [hasBodyBytes])
    · rw [h] at hk
      exact absurd hk (by simp [hasBodyBytes])
    · exact .inr h

/-- A body's token is the body offset its hash has in the index. -/
theorem token_of_keepsBody (hw : write.Plain) (hk : job.keepsBody write = true) :
    job.token write = (job.layers.materialised.extentIndex.lookup write.entry.hash).map
      ExtentLocation.bodyOffset := by
  have hkind := (stagedWrite_of_keepsBody hk).1
  have hhash := (job.stagedWrite_frame write).1
  rw [keepsBody, and_eq_true] at hk
  simp only [token, prePromoteOffset, hkind, hhash]
  rcases hw.kind with h | h | h
  · rw [h]
  · rw [h]
  · rw [h.1] at hk
    exact absurd hk.1 (by simp [hasBodyBytes])

end PromoteJob

namespace Formation

variable (f : Formation) (job : PromoteJob) {write : PendingWrite}

/-- A delta tier takes bodies only. -/
theorem keepsBody_of_deltaSource (hw : write.Plain)
    (h : (f.deltaSource job write).isSome = true) : job.keepsBody write = true := by
  by_contra hk
  have hkind : (f.materialise (job.stagedWrite write)).entry.kind ≠ .data := by
    have hsame := congrArg kind (f.shape_materialise (job.stagedWrite write))
    rw [show (f.materialise (job.stagedWrite write)).entry.kind =
      (job.stagedWrite write).entry.kind from hsame]
    rcases stagedWrite_of_not_keepsBody hw (eq_false_of_ne_true hk) with h | h
    · rw [h]; decide
    · rw [h.1]; decide
  rw [deltaSource] at h
  split_ifs at h
  · cases h
  · rw [f.tierSource_eq_none hkind] at h
    cases h

/-- An entry claims the blocks of its write under the hash of its write. -/
theorem shapeOf_frame (write : PendingWrite) : (f.shapeOf job write).hash = write.entry.hash ∧
      (f.shapeOf job write).startLba = write.entry.startLba ∧
      (f.shapeOf job write).lbaLength = write.entry.lbaLength := by
  rw [shapeOf]
  cases f.deltaSource job write <;> exact job.stagedWrite_frame write

/-- **Tiers.** Which map the entry of a write is applied to. -/
theorem tiers_shapeOf (hw : write.Plain) :
    (f.shapeOf job write).inDataTier = f.reachesData job write ∧
      (f.shapeOf job write).inJournalTier = f.reachesJournal job write := by
  cases hk : job.keepsBody write with
  | false =>
    have hnone : f.deltaSource job write = none := by
      rw [← Option.not_isSome_iff_eq_none]
      intro h
      rw [f.keepsBody_of_deltaSource job hw h] at hk
      cases hk
    rw [shapeOf, hnone, reachesData, reachesJournal, hk]
    show (job.stagedWrite write).entry.inDataTier = _ ∧
      (job.stagedWrite write).entry.inJournalTier = _
    rw [inDataTier, inJournalTier]
    rcases stagedWrite_of_not_keepsBody hw hk with h | h
    · rw [h]; exact ⟨rfl, rfl⟩
    · rw [h.1]; exact ⟨rfl, rfl⟩
  | true =>
    obtain ⟨hkind, hflag⟩ := stagedWrite_of_keepsBody hk
    rw [shapeOf, reachesData, reachesJournal, hk]
    cases f.deltaSource job write with
    | some source => simp [against, inDataTier, inJournalTier, hasBodyBytes]
    | none =>
      have hbody : write.entry.kind.hasBodyBytes = true := by
        rw [keepsBody, and_eq_true] at hk
        exact hk.1
      have hdelta : write.entry.kind ≠ .delta := by
        intro h
        rw [h] at hbody
        exact absurd hbody (by simp [hasBodyBytes])
      show (job.stagedWrite write).entry.inDataTier = _ ∧
        (job.stagedWrite write).entry.inJournalTier = _
      rw [inDataTier, inJournalTier, hkind, hflag, hbody, decide_eq_false hdelta]
      simp

/-- No write becomes canonical-only. -/
theorem isCanonicalOnly_shapeOf (hw : write.entry.kind.isCanonicalOnly = false) :
    (f.shapeOf job write).kind.isCanonicalOnly = false := by
  rw [shapeOf]
  cases f.deltaSource job write with
  | some source => rfl
  | none =>
    show (job.stagedWrite write).entry.kind.isCanonicalOnly = false
    rw [job.kind_stagedWrite]
    split_ifs
    · rfl
    · exact hw

theorem claimHash_shapeOf (hw : write.Plain) :
    SegmentResult.claimHash (f.shapeOf job write) = write.entry.hash := by
  rw [SegmentResult.claimHash, (f.shapeOf_frame job write).1]
  refine (ite_eq_right_iff.mpr fun hzero => ?_)
  rw [shapeOf] at hzero
  cases hsrc : f.deltaSource job write with
  | some source =>
    rw [hsrc] at hzero
    exact absurd hzero (by simp [against])
  | none =>
    rw [hsrc] at hzero
    have hkind : (job.stagedWrite write).entry.kind = .zero := hzero
    rw [job.kind_stagedWrite] at hkind
    split_ifs at hkind
    rcases hw.kind with h | h | h
    · rw [h] at hkind; exact absurd hkind (by decide)
    · rw [h] at hkind; exact absurd hkind (by decide)
    · exact h.2.symm

/-- The kind and the sources of the entry of a write that reaches the data tier. -/
theorem sources_shapeOf (hw : write.Plain) (hr : f.reachesData job write = true) :
    ((f.shapeOf job write).kind = .delta ↔ (f.deltaSource job write).isSome = true) ∧
      (f.shapeOf job write).deltaOptions.map DeltaOption.sourceHash =
        (f.deltaSource job write).toList := by
  rw [reachesData, and_eq_true] at hr
  have hopts : (job.stagedWrite write).entry.shape.deltaOptions = [] := by
    show (job.stagedWrite write).entry.deltaOptions.map _ = []
    rw [options_stagedWrite hw]
    rfl
  rw [shapeOf]
  cases f.deltaSource job write with
  | some source =>
    simp [against, hopts]
  | none =>
    refine ⟨?_, ?_⟩
    · show (job.stagedWrite write).entry.kind = .delta ↔ _
      rw [(stagedWrite_of_keepsBody hr.1).1]
      rcases hw.kind with h | h | h
      · simp [h]
      · simp [h]
      · simp [h.1]
    · simp [against, hopts]

end Formation

end Elide
