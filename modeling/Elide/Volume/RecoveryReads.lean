import Elide.Volume.Formation
import Elide.Volume.Recovery
import Mathlib.Data.List.Find

/-!
# What an opened volume reads

A replayed WAL answers for every block one of its records covers, with the last of them. A promoted
one answers through its segments: the journal segment first, because its ULID is the higher of the
two, and then the data segment. The two differ at a block where a record of the data share follows
one of the journal share (`WalFile.shared` against `WalFile.last`).

## Main results

* `openImpl_spec`: the newest WAL that covers a block answers for it, the segments for the rest, and
  of the files an open leaves the same can be said with every WAL but the last answering through its
  segments.
-/

namespace Elide

open List LbaMapBuilder PendingWrite WalFile

/-! ## Shares of a WAL -/

/-- The last write that covers `x` once `writes`, oldest first, have gone to two segments: those
that start inside the window answer first. -/
def sharedWrite (window : JournalRanges) (writes : List GuestWrite) (x : ℕ) : Option (Hash × ℕ) :=
  (lastWrite (writes.filter fun w => window.contains w.startLba).reverse x).or
    (lastWrite (writes.filter fun w => !window.contains w.startLba).reverse x)

namespace WalFile

/-- The writes of a WAL, oldest first. -/
def writes (wal : WalFile) : List GuestWrite := wal.records.map LogRecord.write

/-- What a replay of the WAL puts at `x`. -/
def last (wal : WalFile) (x : ℕ) : Option (Hash × ℕ) := lastWrite wal.writes.reverse x

/-- What the segments of a promote under `window` put at `x`. -/
def shared (wal : WalFile) (window : JournalRanges) (x : ℕ) : Option (Hash × ℕ) :=
  sharedWrite window wal.writes x

end WalFile

theorem isSome_lastWrite_iff {writes : List GuestWrite} {x : ℕ} :
    (lastWrite writes x).isSome = true ↔
      ∃ w ∈ writes, w.startLba ≤ x ∧ x < w.startLba + w.lbaLength := by
  rw [lastWrite]
  simp

/-- Either way of storing a WAL covers the same blocks. -/
theorem WalFile.isSome_shared (wal : WalFile) (window : JournalRanges) (x : ℕ) :
    (wal.shared window x).isSome = (wal.last x).isSome := by
  rw [Bool.eq_iff_iff, shared, sharedWrite, Option.isSome_or, Bool.or_eq_true, last,
    isSome_lastWrite_iff, isSome_lastWrite_iff, isSome_lastWrite_iff]
  simp only [mem_reverse, mem_filter, Bool.not_eq_true']
  constructor
  · rintro (⟨w, ⟨hw, -⟩, h⟩ | ⟨w, ⟨hw, -⟩, h⟩) <;> exact ⟨w, hw, h⟩
  · rintro ⟨w, hw, h⟩
    cases hin : window.contains w.startLba with
    | true => exact .inl ⟨w, ⟨hw, hin⟩, h⟩
    | false => exact .inr ⟨w, ⟨hw, hin⟩, h⟩

/-- No record of the WAL crosses a boundary of the window. -/
def WalFile.Aligned (wal : WalFile) (window : JournalRanges) : Prop :=
  ∀ r ∈ wal.records, window.crossesBoundary r.write.startLba r.write.lbaLength = false

variable {wal : WalFile}

/-- Where no record crosses a boundary, the records that cover a block are all of one share. -/
theorem WalFile.Aligned.shared_eq {window : JournalRanges} (h : wal.Aligned window) (x : ℕ) :
    wal.shared window x = wal.last x := by
  have hsame : ∀ w ∈ wal.writes.reverse, (w.startLba ≤ x ∧ x < w.startLba + w.lbaLength) →
      window.contains w.startLba = window.contains x := by
    intro w hw hcov
    obtain ⟨r, hr, rfl⟩ := mem_map.mp (mem_reverse.mp hw)
    exact JournalRanges.contains_of_crossesBoundary (h r hr) hcov.1 hcov.2
  have hshare : ∀ b : Bool, lastWrite (wal.writes.filter fun w =>
      window.contains w.startLba == b).reverse x = if window.contains x = b then wal.last x else none := by
    intro b
    rw [← filter_reverse, lastWrite, find?_filter]
    split_ifs with hb
    · refine congrArg (Option.map _) (find?_congr fun w hw => ?_)
      rw [Bool.eq_iff_iff]
      simp only [beq_iff_eq, decide_eq_true_eq]
      exact ⟨And.right, fun hcov => ⟨(hsame w hw hcov).trans hb, hcov⟩⟩
    · rw [Option.map_eq_none_iff, find?_eq_none]
      intro w hw hcov
      simp only [beq_iff_eq, decide_eq_true_eq] at hcov
      exact hb ((hsame w hw hcov.2).symm.trans hcov.1)
  have htrue := hshare true
  have hfalse := hshare false
  simp only [beq_true, beq_false] at htrue hfalse
  rw [shared, sharedWrite, htrue, hfalse]
  cases window.contains x <;> simp

/-! ## Replay -/

/-- No sum over the record's range overflows. -/
def LogRecord.Fits (r : LogRecord) : Prop := LbaMap.Fits r.write.startLba r.write.lbaLength 0

theorem LbaMap.Inv.lookup_insert {m : LbaMap} (hm : m.Inv) {s len : ℕ} (hlen : 0 < len) (h : Hash)
    (c : Ulid) (x : ℕ) :
    (m.insert s len h c).lookup x =
      if s ≤ x ∧ x < s + len then some (h, x - s) else m.lookup x := by
  rw [LbaMap.lookup_eq_map, LbaMap.insert, hm.lookupWithClaimant_insertInner hlen,
    LbaMap.lookup_eq_map]
  split_ifs
  · rw [Option.map_some, Nat.zero_add]
  · rfl

theorem LogRecord.replay_spec {m : Maps} (hm : m.lbamap.Inv) {r : LogRecord} (hr : r.Fits)
    (ulid : Ulid) (journal : JournalRanges) :
    (r.replay ulid journal m).lbamap.Inv ∧ ∀ x, (r.replay ulid journal m).lbamap.lookup x =
        (lastWrite [r.write] x).or (m.lbamap.lookup x) := by
  have hlbamap : (r.replay ulid journal m).lbamap =
      m.lbamap.insert r.write.startLba r.write.lbaLength r.write.hash ulid := by
    cases r <;> rfl
  rw [hlbamap]
  refine ⟨hm.insertInner hr.1 0 _ ulid, fun x => ?_⟩
  rw [hm.lookup_insert hr.1, lastWrite, find?_singleton]
  by_cases hx : r.write.startLba ≤ x ∧ x < r.write.startLba + r.write.lbaLength
  · rw [if_pos hx, decide_eq_true hx]
    rfl
  · rw [if_neg hx, decide_eq_false hx]
    rfl

/-- **A replay overrides the map** wherever a record covers it. -/
theorem replayWalRecords_spec {m : Maps} (hm : m.lbamap.Inv) (hfits : ∀ r ∈ wal.records, r.Fits)
    (journal : JournalRanges) :
    (replayWalRecords wal m journal).1.lbamap.Inv ∧
      ∀ x, (replayWalRecords wal m journal).1.lbamap.lookup x =
        (wal.last x).or (m.lbamap.lookup x) := by
  obtain ⟨ulid, records⟩ := wal
  simp only [replayWalRecords, last, writes]
  induction records generalizing m with
  | nil => exact ⟨hm, fun x => by simp [lastWrite]⟩
  | cons r records ih =>
    obtain ⟨hinv, hlook⟩ := LogRecord.replay_spec hm (hfits r mem_cons_self) ulid journal
    obtain ⟨hinv', hlook'⟩ := ih hinv fun r' hr' => hfits r' (mem_cons_of_mem _ hr')
    refine ⟨hinv', fun x => ?_⟩
    rw [foldl_cons, hlook', hlook, map_cons, reverse_cons, lastWrite_append, Option.or_assoc]

/-! ## The segments of a promote -/

/-- The write an entry stands for. -/
def SegmentEntry.write (e : SegmentEntry) : GuestWrite := ⟨e.startLba, e.lbaLength, e.hash⟩

/-- The guest write behind it. -/
def PendingWrite.write (w : PendingWrite) : GuestWrite := w.entry.write

theorem lastClaim_eq_lastWrite {es : List SegmentEntry}
    (hes : ∀ e ∈ es, e.kind.isCanonicalOnly = false) (x : ℕ) :
    ((lastClaim es x).map fun e => (e.hash, x - e.startLba)) =
      lastWrite (es.map SegmentEntry.write).reverse x := by
  rw [lastWrite, ← map_reverse, find?_map, Option.map_map]
  refine congrArg (Option.map _) (find?_congr fun e he => ?_)
  show decide (e.kind.isCanonicalOnly = false ∧ e.Covers x) = decide (e.Covers x)
  simp [hes e (mem_reverse.mp he)]

/-- What a promote may be asked to write: claims that fit. -/
def PromoteJob.Claims (job : PromoteJob) : Prop :=
  ∀ w ∈ job.pending, w.entry.kind.isCanonicalOnly = false ∧
    LbaMap.Fits w.entry.startLba w.entry.lbaLength 0

section Segments

variable {f : Formation} {job : PromoteJob} {part : SegmentResult} {ws : List PendingWrite}

/-- The files of one share: at most one, under the share's ULID, that answers as its writes. -/
structure ShareFiles (files : List SegmentFile) (ulid : Ulid) (writes : List GuestWrite) : Prop where
  flush : ∀ s ∈ files, LbaMapBuilder.Flush s
  ulid : ∀ s ∈ files, s.ulid = ulid
  single : ∀ s ∈ files, ∀ t ∈ files, s = t
  lookup : ∀ x, (build files).lookup x = lastWrite writes.reverse x

theorem shareFiles_nil (ulid : Ulid) : ShareFiles [] ulid [] :=
  ⟨by simp, by simp, by simp, fun x => lookup_build_nil x⟩

/-- A segment formed from claims makes the same claims. -/
theorem shareFiles_of_shapes (hsub : ∀ w ∈ ws, w ∈ job.pending) (hjob : job.Claims)
    (hshape : part.entries.map SegmentEntry.shape = ws.map (f.shapeOf job)) :
    ShareFiles [⟨part.segmentUlid, [], part.entries⟩] part.segmentUlid (ws.map write) := by
  have hentry : ∀ e ∈ part.entries, ∃ w ∈ ws, f.shapeOf job w = e.shape := by
    intro e he
    have hmem : e.shape ∈ ws.map (f.shapeOf job) := hshape ▸ mem_map_of_mem he
    obtain ⟨w, hw, heq⟩ := mem_map.mp hmem
    exact ⟨w, hw, heq⟩
  have hkind : ∀ e ∈ part.entries, e.kind.isCanonicalOnly = false := by
    intro e he
    obtain ⟨w, hw, heq⟩ := hentry e he
    have hcanon := f.isCanonicalOnly_shapeOf job (hjob w (hsub w hw)).1
    rw [heq] at hcanon
    exact hcanon
  have hflush : LbaMapBuilder.Flush ⟨part.segmentUlid, [], part.entries⟩ := by
    refine ⟨rfl, fun e he _ => ?_⟩
    obtain ⟨w, hw, heq⟩ := hentry e he
    obtain ⟨-, hstart, hlen⟩ := f.shapeOf_frame job w
    rw [heq] at hstart hlen
    have hfit := (hjob w (hsub w hw)).2
    rw [← hstart, ← hlen] at hfit
    exact hfit
  refine ⟨by simpa using hflush, by simp, by simp, fun x => ?_⟩
  · rw [lookup_build_singleton hflush, lastClaim_eq_lastWrite hkind]
    have hwrites : part.entries.map SegmentEntry.write = ws.map write := by
      have h := congrArg (List.map SegmentEntry.write) hshape
      rw [map_map, map_map] at h
      refine h.trans (map_congr_left fun w _ => ?_)
      obtain ⟨hhash, hstart, hlen⟩ := f.shapeOf_frame job w
      show (⟨_, _, _⟩ : GuestWrite) = ⟨_, _, _⟩
      rw [hhash, hstart, hlen]
    rw [hwrites]

/-- Names stay distinct when newer files are added. -/
theorem distinct_append {old new : List SegmentFile}
    (hold : ∀ s ∈ old, ∀ t ∈ old, s.ulid = t.ulid → s = t)
    (hnew : ∀ s ∈ new, ∀ t ∈ new, s.ulid = t.ulid → s = t)
    (hlt : ∀ s ∈ old, ∀ t ∈ new, s.ulid < t.ulid) :
    ∀ s ∈ old ++ new, ∀ t ∈ old ++ new, s.ulid = t.ulid → s = t := by
  intro s hs t ht heq
  rcases mem_append.mp hs with hs | hs <;> rcases mem_append.mp ht with ht | ht
  · exact hold s hs t ht heq
  · exact absurd heq (hlt s hs t ht).ne
  · exact absurd heq (hlt t ht s hs).ne'
  · exact hnew s hs t ht heq

theorem ShareFiles.append {P J : List SegmentFile} {u v : Ulid} {ws vs : List GuestWrite}
    (hP : ShareFiles P u ws) (hJ : ShareFiles J v vs) (hlt : u < v) :
    (∀ s ∈ P ++ J, LbaMapBuilder.Flush s ∧ (s.ulid = u ∨ s.ulid = v)) ∧
    (∀ s ∈ P ++ J, ∀ t ∈ P ++ J, s.ulid = t.ulid → s = t) ∧ ∀ x, (build (P ++ J)).lookup x =
      (lastWrite vs.reverse x).or (lastWrite ws.reverse x) := by
  have hbelow : ∀ s ∈ P, ∀ t ∈ J, s.ulid < t.ulid := by
    intro s hs t ht
    rw [hP.ulid s hs, hJ.ulid t ht]
    exact hlt
  have hdistinct := distinct_append (fun s hs t ht _ => hP.single s hs t ht)
    (fun s hs t ht _ => hJ.single s hs t ht) hbelow
  have hflush : ∀ s ∈ P ++ J, LbaMapBuilder.Flush s := forall_mem_append.mpr ⟨hP.flush, hJ.flush⟩
  refine ⟨fun s hs => ⟨hflush s hs, ?_⟩, hdistinct, fun x => ?_⟩
  · exact (mem_append.mp hs).imp (hP.ulid s) (hJ.ulid s)
  · rw [lookup_build_append hflush hdistinct hbelow, hP.lookup, hJ.lookup]

/-- **What a promote writes answers as its shares.** -/
theorem segments_spec (f : Formation) (hjob : job.Claims)
    (hlt : job.segmentUlid < job.journalSegmentUlid) :
    (∀ seg ∈ (f.executePromote job).segments, LbaMapBuilder.Flush seg ∧
      (seg.ulid = job.segmentUlid ∨ seg.ulid = job.journalSegmentUlid)) ∧
    (∀ s ∈ (f.executePromote job).segments, ∀ t ∈ (f.executePromote job).segments,
      s.ulid = t.ulid → s = t) ∧
    ∀ x, (build (f.executePromote job).segments).lookup x =
      sharedWrite job.journalRanges (job.pending.map write) x := by
  have hsub : ∀ p : PendingWrite → Bool, ∀ w ∈ job.pending.filter p, w ∈ job.pending :=
    fun p w hw => (mem_filter.mp hw).1
  have hfilter : ∀ p : ℕ → Bool, ((job.pending.map write).filter fun w =>
      p w.startLba) = (job.pending.filter fun w => p w.entry.startLba).map write := by
    intro p
    rw [filter_map]
    rfl
  have hP : ShareFiles (if (f.executePromote job).primary.entries.isEmpty then []
      else [⟨job.segmentUlid, [], (f.executePromote job).primary.entries⟩]) job.segmentUlid
        (job.outside.map write) := by
    have hshape := (f.shape_primary job).1
    split_ifs with hempty
    · rw [isEmpty_iff.mp hempty, map_nil, eq_comm, map_eq_nil_iff] at hshape
      rw [hshape]
      exact shareFiles_nil _
    · exact shareFiles_of_shapes (hsub _) hjob hshape
  have hJ : ShareFiles ((f.executePromote job).journal.map fun part =>
      (⟨part.segmentUlid, [], part.entries⟩ : SegmentFile)).toList job.journalSegmentUlid
        (job.journalShare.map write) := by
    rcases f.shape_journal job with ⟨hsplit, hnone⟩ | ⟨-, part, hpart, hpu, hshape, -⟩
    · have hnil : job.journalShare = [] := filter_eq_nil_iff.mpr (any_eq_false.mp hsplit)
      rw [hnone, hnil]
      exact shareFiles_nil _
    · rw [hpart, ← hpu]
      exact shareFiles_of_shapes (hsub _) hjob hshape
  obtain ⟨hflush, hdistinct, hlook⟩ := hP.append hJ hlt
  refine ⟨hflush, hdistinct, fun x => (hlook x).trans ?_⟩
  rw [sharedWrite, hfilter fun lba => job.journalRanges.contains lba,
    hfilter fun lba => !job.journalRanges.contains lba]
  rfl

/-- A promote is applied, and moves no read. -/
theorem applyPromotedEntries_reads (r : PromoteResult) {m : Maps} (hm : m.lbamap.Inv) :
    ∃ m', applyPromotedEntries r m = .ok m' ∧ m'.lbamap.Inv ∧
      ∀ x, m'.lbamap.lookup x = m.lbamap.lookup x := by
  obtain ⟨y, hy⟩ := r.primary.exists_applyPromotedPartition r.oldWalUlid m
  obtain ⟨hinv, hlook⟩ := r.primary.restampClaims_reads hm
  rw [applyPromotedEntries, hy]
  cases r.journal with
  | none => exact ⟨_, rfl, hinv, hlook⟩
  | some part =>
    obtain ⟨z, hz⟩ := part.exists_applyPromotedPartition r.oldWalUlid
      ⟨r.primary.restampClaims m.lbamap, y⟩
    obtain ⟨hinv', hlook'⟩ := part.restampClaims_reads hinv
    exact ⟨_, hz, hinv', fun x => (hlook' x).trans (hlook x)⟩

end Segments

/-! ## The recovery loop -/

theorem UlidMint.lt_next (mint : UlidMint) (clock : ℕ → Ulid) :
    mint.last < (mint.next clock).1 ∧ (mint.next clock).2.last = (mint.next clock).1 := by
  refine ⟨?_, rfl⟩
  simp only [next]
  split_ifs with h
  · exact h
  · exact Nat.lt_succ_self _

namespace LogRecord

/-- A staged record claims what the record wrote. -/
theorem pendingWrite_spec (journal : JournalRanges) (r : LogRecord) :
    (r.pendingWrite journal).write = r.write ∧ (r.Fits →
      (r.pendingWrite journal).entry.kind.isCanonicalOnly = false ∧ LbaMap.Fits
        (r.pendingWrite journal).entry.startLba (r.pendingWrite journal).entry.lbaLength 0) := by
  cases r with
  | data hash startLba lbaLength codec bodyOffset bodyLength =>
    refine ⟨rfl, fun hfit => ⟨?_, hfit⟩⟩
    show (if wouldBeInline bodyLength then EntryKind.inline else .data).isCanonicalOnly = false
    split_ifs <;> rfl
  | ref | zero => exact ⟨rfl, fun hfit => ⟨rfl, hfit⟩⟩

end LogRecord

/-- What is staged from a WAL claims what it wrote. -/
theorem WalFile.staged_spec (wal : WalFile) (hfits : ∀ r ∈ wal.records, r.Fits) (job : PromoteJob)
    (hpending : job.pending = wal.records.map (LogRecord.pendingWrite job.journalRanges)) :
    job.Claims ∧ job.pending.map write = wal.writes := by
  rw [PromoteJob.Claims, hpending, map_map]
  refine ⟨fun w hw => ?_, map_congr_left fun r _ => (r.pendingWrite_spec _).1⟩
  obtain ⟨r, hr, rfl⟩ := mem_map.mp hw
  exact (r.pendingWrite_spec _).2 (hfits r hr)

/-- The loop has taken `st` to `st'` over the stale WALs `ws`, writing `new`. -/
structure Recovered (journal : JournalRanges) (ws : List WalFile) (st st' : Recovering)
    (new : List SegmentFile) : Prop where
  segments : st'.segments = st.segments ++ new
  inv : st'.maps.lbamap.Inv
  reads : ∀ x, st'.maps.lbamap.lookup x =
    (ws.reverse.findSome? fun wal => wal.last x).or (st.maps.lbamap.lookup x)
  mint : st.mint.last ≤ st'.mint.last
  fresh : ∀ seg ∈ new, LbaMapBuilder.Flush seg ∧ st.mint.last < seg.ulid ∧ seg.ulid ≤ st'.mint.last
  distinct : ∀ s ∈ new, ∀ t ∈ new, s.ulid = t.ulid → s = t
  rebuilt : ∀ x, (build new).lookup x = ws.reverse.findSome? fun wal => wal.shared journal x

theorem recoverStale_spec (journal : JournalRanges) (env : OpenEnv) {st : Recovering}
    (hst : st.maps.lbamap.Inv) (hfits : ∀ r ∈ wal.records, r.Fits) :
    ∃ st' new, recoverStale journal env st wal = .ok st' ∧ Recovered journal [wal] st st' new := by
  have hsingle : ∀ g : WalFile → Option (Hash × ℕ), [wal].reverse.findSome? g = g wal := by
    intro g
    simp only [reverse_singleton, findSome?_cons]
    cases g wal <;> rfl
  obtain ⟨hinv, hlook⟩ := replayWalRecords_spec hst hfits journal
  rw [recoverStale]
  dsimp only
  by_cases hempty : (replayWalRecords wal st.maps journal).2.isEmpty = true
  · rw [if_pos hempty]
    have hnil : wal.records = [] := by simpa [replayWalRecords] using hempty
    refine ⟨_, [], rfl, (append_nil _).symm, hinv, fun x => ?_, le_refl _, by simp, by simp,
      fun x => ?_⟩
    · rw [hsingle]
      exact hlook x
    · rw [hsingle, lookup_build_nil, shared, writes, hnil]
      rfl
  · rw [if_neg hempty]
    obtain ⟨hlt, hlast⟩ := st.mint.lt_next env.clock
    obtain ⟨hlt', hlast'⟩ := (st.mint.next env.clock).2.lt_next env.clock
    -- the stale WAL is promoted: no read moves, and its segments answer as its shares
    obtain ⟨hclaims, hwrites⟩ := wal.staged_spec hfits ⟨(st.mint.next env.clock).1, wal.ulid,
      (replayWalRecords wal st.maps journal).2, journal,
      ((st.mint.next env.clock).2.next env.clock).1,
      MapLayers.new (replayWalRecords wal st.maps journal).1⟩ rfl
    obtain ⟨hseg, hdistinct, hshared⟩ :=
      segments_spec { env.formation with deltaEnabled := false } hclaims hlt'
    rw [hwrites] at hshared
    obtain ⟨m', happly, hinv', hlook'⟩ := applyPromotedEntries_reads
      (Formation.executePromote { env.formation with deltaEnabled := false } _) hinv
    rw [happly]
    refine ⟨_, _, rfl, rfl, hinv', fun x => ?_, ?_, fun seg hs => ?_, hdistinct, fun x => ?_⟩
    · rw [hsingle]
      exact (hlook' x).trans (hlook x)
    · exact (hlt.trans hlt').le.trans hlast'.ge
    · obtain ⟨hflush, hulid⟩ := hseg seg hs
      rcases hulid with h | h
      · exact ⟨hflush, h ▸ hlt, h ▸ hlt'.le.trans hlast'.ge⟩
      · exact ⟨hflush, h ▸ hlt.trans hlt', h ▸ hlast'.ge⟩
    · rw [hsingle]
      exact hshared x

theorem Recovered.trans {journal : JournalRanges} {ws ws' : List WalFile} {st st' st'' : Recovering}
    {new new' : List SegmentFile} (h : Recovered journal ws st st' new)
    (h' : Recovered journal ws' st' st'' new') :
    Recovered journal (ws ++ ws') st st'' (new ++ new') := by
  have hlt : ∀ s ∈ new, ∀ t ∈ new', s.ulid < t.ulid := fun s hs t ht =>
    (h.fresh s hs).2.2.trans_lt (h'.fresh t ht).2.1
  have hfresh : ∀ seg ∈ new ++ new',
      LbaMapBuilder.Flush seg ∧ st.mint.last < seg.ulid ∧ seg.ulid ≤ st''.mint.last := by
    intro seg hseg
    rcases mem_append.mp hseg with hs | hs
    · obtain ⟨hf, hlo, hhi⟩ := h.fresh seg hs
      exact ⟨hf, hlo, hhi.trans h'.mint⟩
    · obtain ⟨hf, hlo, hhi⟩ := h'.fresh seg hs
      exact ⟨hf, h.mint.trans_lt hlo, hhi⟩
  have hdistinct := distinct_append h.distinct h'.distinct hlt
  refine ⟨?_, h'.inv, fun x => ?_, h.mint.trans h'.mint, hfresh, hdistinct, fun x => ?_⟩
  · rw [h'.segments, h.segments, append_assoc]
  · rw [h'.reads, h.reads, reverse_append, findSome?_append, Option.or_assoc]
  · rw [lookup_build_append (fun s hs => (hfresh s hs).1) hdistinct hlt, h.rebuilt,
      h'.rebuilt, reverse_append, findSome?_append]

/-- **The recovery loop.** -/
theorem recoverStale_run (journal : JournalRanges) (env : OpenEnv) {ws : List WalFile}
    (hfits : ∀ wal ∈ ws, ∀ r ∈ wal.records, r.Fits) (st : Recovering) (hst : st.maps.lbamap.Inv) :
    ∃ st' new, ws.foldlM (recoverStale journal env) st = .ok st' ∧
      Recovered journal ws st st' new := by
  induction ws generalizing st with
  | nil =>
    refine ⟨st, [], rfl, (append_nil _).symm, hst, fun _ => rfl, le_refl _, by simp, by simp,
      fun x => lookup_build_nil x⟩
  | cons wal ws ih =>
    obtain ⟨st₁, new₁, hstep, h₁⟩ := recoverStale_spec journal env hst (hfits wal mem_cons_self)
    obtain ⟨st₂, new₂, hrun, h₂⟩ := ih (fun w hw => hfits w (mem_cons_of_mem _ hw)) st₁ h₁.inv
    refine ⟨st₂, new₁ ++ new₂, ?_, h₁.trans h₂⟩
    rw [foldlM_cons, hstep]
    exact hrun

/-! ## Opening -/

/-- The files of a volume as its own steps leave them. -/
structure Disk.Tidy (disk : Disk) : Prop where
  flush : ∀ seg ∈ disk.segments, LbaMapBuilder.Flush seg
  distinct : ∀ s ∈ disk.segments, ∀ t ∈ disk.segments, s.ulid = t.ulid → s = t
  ascending : disk.wals.Pairwise fun a b => a.ulid < b.ulid
  unshared : ∀ wal ∈ disk.wals, ∀ seg ∈ disk.segments, seg.ulid ≠ wal.ulid
  fits : ∀ wal ∈ disk.wals, ∀ r ∈ wal.records, r.Fits

variable {disk : Disk}

theorem Disk.Tidy.walFiles_eq (h : disk.Tidy) : disk.walFiles = disk.wals := by
  have hsorted : disk.wals.mergeSort (fun a b => decide (a.ulid ≤ b.ulid)) = disk.wals :=
    mergeSort_of_pairwise (h.ascending.imp fun hlt => decide_eq_true hlt.le)
  rw [walFiles, hsorted, filter_eq_self]
  intro wal hwal
  rw [Bool.not_eq_true', any_eq_false]
  intro seg hseg
  rw [decide_eq_true_eq]
  exact h.unshared wal hwal seg hseg

theorem Disk.le_mintFloor (disk : Disk) {seg : SegmentFile} (hseg : seg ∈ disk.segments) :
    seg.ulid ≤ disk.mintFloor := by
  have hfold : ∀ (segs : List SegmentFile) (m : ℕ), m ≤ segs.foldl (fun m seg => max m seg.ulid) m ∧
        ∀ s ∈ segs, s.ulid ≤ segs.foldl (fun m seg => max m seg.ulid) m := by
    intro segs
    induction segs with
    | nil => simp
    | cons t segs ih =>
      intro m
      obtain ⟨hm, hs⟩ := ih (max m t.ulid)
      refine ⟨(le_max_left _ _).trans hm, fun s hs' => ?_⟩
      rcases mem_cons.mp hs' with rfl | hs'
      · exact (le_max_right _ _).trans hm
      · exact hs s hs'
  exact ((hfold disk.segments 0).2 seg hseg).trans (le_max_left _ _)

theorem Disk.Tidy.last_le_mintFloor (h : disk.Tidy) (hlast : disk.wals.getLast? = some wal) :
    wal.ulid ≤ disk.mintFloor := by
  rw [mintFloor, h.walFiles_eq, hlast]
  exact le_max_right _ _

/-- What the WALs put at `x`: the newest that covers it answers. -/
def Disk.replayed (disk : Disk) (x : ℕ) : Option (Hash × ℕ) :=
  disk.wals.reverse.findSome? fun wal => wal.last x

/-- What the WALs put at `x` once every one but the last has gone to segments under `window`. -/
def Disk.repromoted (disk : Disk) (window : JournalRanges) (x : ℕ) : Option (Hash × ℕ) :=
  (disk.wals.getLast?.bind fun wal => wal.last x).or
    (disk.wals.dropLast.reverse.findSome? fun wal => wal.shared window x)

/-- **An open reads the WALs over the segments**, and leaves files that read as the segments under
the WALs promoted. -/
theorem openImpl_spec (h : disk.Tidy) (window : JournalRanges) (env : OpenEnv) :
    ∃ maps disk', openImpl disk window env = .ok (maps, disk') ∧ disk'.Tidy ∧
      (∀ x, maps.lbamap.lookup x = (disk.replayed x).or ((build disk.segments).lookup x)) ∧
      ∀ x, (disk'.replayed x).or ((build disk'.segments).lookup x) =
        (disk.repromoted window x).or ((build disk.segments).lookup x) := by
  have hstale : ∀ wal ∈ disk.wals.dropLast, wal ∈ disk.wals := fun wal hwal =>
    dropLast_subset _ hwal
  obtain ⟨st, new, hrun, hrec⟩ := recoverStale_run window env
    (fun wal hwal => h.fits wal (hstale wal hwal))
    ⟨⟨build disk.segments, env.index⟩, ⟨disk.mintFloor, 0⟩, disk.segments⟩
    (newest_build h.flush).1
  have hnew : ∀ seg ∈ disk.segments, ∀ t ∈ new, seg.ulid < t.ulid := fun seg hseg t ht =>
    (disk.le_mintFloor hseg).trans_lt (hrec.fresh t ht).2.1
  have hflush : ∀ seg ∈ disk.segments ++ new, LbaMapBuilder.Flush seg := by
    intro seg hseg
    exact (mem_append.mp hseg).elim (h.flush seg) fun hseg => (hrec.fresh seg hseg).1
  have hdistinct := distinct_append h.distinct hrec.distinct hnew
  have hbuild : ∀ x, (build st.segments).lookup x =
      (disk.wals.dropLast.reverse.findSome? fun wal => wal.shared window x).or
        ((build disk.segments).lookup x) := by
    intro x
    rw [hrec.segments, lookup_build_append hflush hdistinct hnew, hrec.rebuilt]
  rw [openImpl, h.walFiles_eq, hrun]
  cases hlast : disk.wals.getLast? with
  | none =>
    have hnil := getLast?_eq_none_iff.mp hlast
    refine ⟨_, _, rfl, ⟨?_, ?_, List.Pairwise.nil, by simp, by simp⟩, fun x => ?_, fun x => ?_⟩
    · exact hrec.segments ▸ hflush
    · exact hrec.segments ▸ hdistinct
    · rw [Disk.replayed, hrec.reads, hnil]
      rfl
    · rw [Disk.repromoted, hlast, hbuild]
      rfl
  | some wal =>
    have hwals : disk.wals = disk.wals.dropLast ++ [wal] :=
      (dropLast_append_getLast? wal hlast).symm
    have hmem : wal ∈ disk.wals := mem_of_getLast? hlast
    have hsplit : ∀ g : WalFile → Option (Hash × ℕ), disk.wals.reverse.findSome? g =
        (g wal).or (disk.wals.dropLast.reverse.findSome? g) := by
      intro g
      conv_lhs => rw [hwals, reverse_append, reverse_singleton]
      rw [singleton_append, findSome?_cons]
      cases g wal <;> rfl
    refine ⟨_, _, rfl, ⟨?_, ?_, pairwise_singleton _ _, ?_, ?_⟩, fun x => ?_, fun x => ?_⟩
    · exact hrec.segments ▸ hflush
    · exact hrec.segments ▸ hdistinct
    · intro w hw seg hseg
      rw [mem_singleton.mp hw]
      rw [show _ = _ from hrec.segments] at hseg
      rcases mem_append.mp hseg with hseg | hseg
      · exact h.unshared wal hmem seg hseg
      · exact ((h.last_le_mintFloor hlast).trans_lt (hrec.fresh seg hseg).2.1).ne'
    · intro w hw
      rw [mem_singleton.mp hw]
      exact h.fits wal hmem
    · rw [(replayWalRecords_spec hrec.inv (h.fits wal hmem) window).2 x, hrec.reads, Disk.replayed,
        hsplit, Option.or_assoc]
    · rw [Disk.repromoted, hlast, hbuild, Disk.replayed]
      rw [reverse_singleton, findSome?_cons, Option.bind_some]
      cases wal.last x <;> rfl

end Elide
