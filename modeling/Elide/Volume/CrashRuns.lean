import Elide.Lib.Run
import Elide.Volume.Epoch
import Elide.Volume.RecoveryReads

/-!
# Crash recovery

The files of a volume while guest writes and zeroes go from WAL to WAL. An epoch is taken with the
ULIDs of its segments; its promote commits them at some later time, in any order among the epochs,
or fails and stays stashed; the WAL of a committed epoch is unlinked some time after, or never. A
crash leaves what is on disk at that moment, and the next open is given no more.

An open replays every WAL over every segment. That is right for a WAL that is newer than all the
segments, but not for the WAL of a stashed promote when a later epoch has been committed and its
WAL is gone: there the older write answers.

## Main results

* `VolumeFiles.crash_recovers_iff`: exactly which files recover the last write.
* `VolumeFiles.InOrder.sound`: those do whose WALs went oldest first and whose records respect the
  window they are promoted under.
* `VolumeFiles.orderly_run_recovers`: a volume that unlinks its WALs in that order recovers at every
  crash point.
-/

namespace Elide

open List WalFile LbaMapBuilder

/-- The WAL record of a commit. -/
def Commit.record : Commit → LogRecord
  | .write lba lbaLength hash codec storedLength bodyOffset =>
    .data hash lba lbaLength codec bodyOffset storedLength
  | .zero startLba lbaCount => .zero startLba lbaCount

theorem Commit.record_fits {c : Commit} (hc : c.Fits) : c.record.Fits := by
  cases c <;> exact hc

/-! ## Files and runs -/

/-- An epoch whose promote has been prepared. -/
structure TakenEpoch where
  wal : WalFile
  job : PromoteJob
  /-- The segments of the promote, once they are committed. -/
  files : Option (List SegmentFile)
  /-- Whether the WAL file is gone. -/
  unlinked : Bool

/-- The epoch of the open WAL. -/
structure OpenEpoch where
  wal : WalFile
  pending : List PendingWrite

/-- The files of a volume, and what its writer knows of them. -/
structure VolumeFiles where
  /-- Oldest first. -/
  taken : List TakenEpoch
  current : Option OpenEpoch
  /-- The journal window. -/
  window : JournalRanges
  /-- The last ULID minted. -/
  last : Ulid

/-- What happens to the volume's files. -/
inductive VolumeFiles.Action where
  /-- A write or a zero, with the ULID of the WAL should one have to be opened. -/
  | commit (c : Commit) (ulid : Ulid)
  /-- Prepare the promote of the open WAL under the maps of the moment. -/
  | take (segmentUlid journalSegmentUlid : Ulid) (derived : Option JournalRanges) (maps : MapLayers)
  /-- The promote of a WAL succeeds. -/
  | promoted (wal : Ulid) (f : Formation)
  /-- The WAL of a committed promote is removed. -/
  | unlink (wal : Ulid)

namespace TakenEpoch

/-- The worker's segments are committed, once. -/
def promoted (e : TakenEpoch) (f : Formation) : TakenEpoch :=
  match e.files with
  | some _ => e
  | none => { e with files := some (f.executePromote e.job).segments }

/-- The WAL goes, if its segments are committed. -/
def unlink (e : TakenEpoch) : TakenEpoch :=
  match e.files with
  | some _ => { e with unlinked := true }
  | none => e

variable (e : TakenEpoch) (f : Formation)

@[simp] theorem wal_promoted : (e.promoted f).wal = e.wal := by rw [promoted]; split <;> rfl
@[simp] theorem job_promoted : (e.promoted f).job = e.job := by rw [promoted]; split <;> rfl

@[simp] theorem unlinked_promoted : (e.promoted f).unlinked = e.unlinked := by
  rw [promoted]; split <;> rfl

@[simp] theorem wal_unlink : e.unlink.wal = e.wal := by rw [unlink]; split <;> rfl
@[simp] theorem job_unlink : e.unlink.job = e.job := by rw [unlink]; split <;> rfl

theorem unlinked_unlink (h : e.unlinked = true) : e.unlink.unlinked = true := by
  rw [unlink]
  split
  · rfl
  · exact h

end TakenEpoch

namespace VolumeFiles

/-- A volume nothing was written to. -/
def init (window : JournalRanges) : VolumeFiles := ⟨[], none, window, 0⟩

variable (s : VolumeFiles)

/-- Change the epochs of one WAL. -/
def onEpoch (wal : Ulid) (g : TakenEpoch → TakenEpoch) : VolumeFiles :=
  { s with taken := s.taken.map fun e => if e.wal.ulid = wal then g e else e }

/-- One action. -/
def step : Action → VolumeFiles
  | .commit c ulid =>
    let write := c.record.pendingWrite s.window
    match s.current with
    | some o =>
      let wal := { o.wal with records := o.wal.records ++ [c.record] }
      { s with current := some ⟨wal, o.pending ++ [write]⟩ }
    | none => { s with current := some ⟨⟨ulid, [c.record]⟩, [write]⟩, last := ulid }
  | .take segmentUlid journalSegmentUlid derived maps =>
    match s.current with
    | some o =>
      let job := Volume.takeWalIntoPromoteJob ⟨maps, o.wal.ulid, o.pending, s.window⟩
        segmentUlid journalSegmentUlid derived
      { taken := s.taken ++ [⟨o.wal, job, none, false⟩]
        current := none
        window := job.journalRanges
        last := journalSegmentUlid }
    | none => s
  | .promoted wal f => s.onEpoch wal fun e => e.promoted f
  | .unlink wal => s.onEpoch wal TakenEpoch.unlink

/-- The commit has a range the map can hold, and minted ULIDs ascend. -/
def Legal : Action → Prop
  | .commit c ulid => c.Fits ∧ (s.current = none → s.last < ulid)
  | .take segmentUlid journalSegmentUlid .. =>
    s.last < segmentUlid ∧ segmentUlid < journalSegmentUlid
  | .promoted .. => True
  | .unlink _ => True

instance : ∀ a, Decidable (s.Legal a)
  | .commit .. => inferInstanceAs (Decidable (_ ∧ (_ → _)))
  | .take .. => inferInstanceAs (Decidable (_ ∧ _))
  | .promoted .. => isTrue trivial
  | .unlink _ => isTrue trivial

/-- The WALs of all epochs, oldest first. -/
def epochs : List WalFile :=
  s.taken.map TakenEpoch.wal ++ (s.current.map OpenEpoch.wal).toList

/-- Every write of the run, newest first. -/
def history : List GuestWrite := (s.epochs.flatMap WalFile.writes).reverse

/-- What a crash leaves. -/
def disk : Disk where
  segments := s.taken.flatMap fun e => e.files.getD []
  wals := (s.taken.filter fun e => !e.unlinked).map TakenEpoch.wal ++
    (s.current.map OpenEpoch.wal).toList

/-- The open after a crash, and the one after that, read the last write of every block. -/
def Recovers (window window' : JournalRanges) (env env' : OpenEnv) : Prop :=
  ∃ maps disk maps' disk', openImpl s.disk window env = .ok (maps, disk) ∧
    openImpl disk window' env' = .ok (maps', disk') ∧
    ∀ lba, maps.lbamap.lookup lba = lastWrite s.history lba ∧
      maps'.lbamap.lookup lba = lastWrite s.history lba

end VolumeFiles

/-! ## What the steps keep -/

/-- The staged writes stand for the records of the WAL. -/
structure WalFile.Staged (wal : WalFile) (pending : List PendingWrite) : Prop where
  fits : ∀ r ∈ wal.records, r.Fits
  claims : ∀ w ∈ pending, w.entry.kind.isCanonicalOnly = false ∧
    LbaMap.Fits w.entry.startLba w.entry.lbaLength 0
  writes : pending.map PendingWrite.write = wal.writes

theorem WalFile.Staged.snoc {wal : WalFile} {pending : List PendingWrite} (h : wal.Staged pending)
    {r : LogRecord} (hr : r.Fits) (window : JournalRanges) :
    WalFile.Staged { wal with records := wal.records ++ [r] }
      (pending ++ [r.pendingWrite window]) := by
  obtain ⟨hwrite, hclaim⟩ := r.pendingWrite_spec window
  refine ⟨forall_mem_append.mpr ⟨h.fits, forall_mem_singleton.mpr hr⟩,
    forall_mem_append.mpr ⟨h.claims, forall_mem_singleton.mpr (hclaim hr)⟩, ?_⟩
  rw [map_append, h.writes, WalFile.writes, WalFile.writes, map_append,
      map_singleton, map_singleton, hwrite]

/-- What is kept of a taken epoch. -/
structure TakenEpoch.Ok (e : TakenEpoch) : Prop where
  staged : e.wal.Staged e.job.pending
  walBelow : e.wal.ulid < e.job.segmentUlid
  segmentBelow : e.job.segmentUlid < e.job.journalSegmentUlid
  files : ∀ fs, e.files = some fs → ∃ f : Formation, fs = (f.executePromote e.job).segments
  unlinked : e.unlinked = true → e.files.isSome = true

namespace TakenEpoch

variable {e : TakenEpoch}

theorem Ok.below (h : e.Ok) : e.wal.ulid < e.job.journalSegmentUlid :=
  h.walBelow.trans h.segmentBelow

theorem Ok.promoted (h : e.Ok) (f : Formation) : (e.promoted f).Ok := by
  rw [TakenEpoch.promoted]
  split
  · exact h
  · refine ⟨h.staged, h.walBelow, h.segmentBelow, fun fs hfs => ⟨f, ?_⟩, fun _ => rfl⟩
    exact (Option.some.inj hfs).symm

theorem Ok.unlink (h : e.Ok) : e.unlink.Ok := by
  rw [TakenEpoch.unlink]
  split
  next hfs => exact ⟨h.staged, h.walBelow, h.segmentBelow, h.files, fun _ => by rw [hfs]; rfl⟩
  next => exact h

/-- **The files of an epoch** are named by its ULIDs and answer as its shares. -/
theorem Ok.files_spec (h : e.Ok) : (∀ seg ∈ e.files.getD [], LbaMapBuilder.Flush seg ∧
      (seg.ulid = e.job.segmentUlid ∨ seg.ulid = e.job.journalSegmentUlid)) ∧
    (∀ s ∈ e.files.getD [], ∀ t ∈ e.files.getD [], s.ulid = t.ulid → s = t) ∧
    ∀ x, (build (e.files.getD [])).lookup x =
      if e.files.isSome then e.wal.shared e.job.journalRanges x else none := by
  cases hfiles : e.files with
  | none => exact ⟨by simp, by simp, fun x => lookup_build_nil x⟩
  | some fs =>
    obtain ⟨f, rfl⟩ := h.files fs hfiles
    obtain ⟨hseg, hdistinct, hshared⟩ := segments_spec f h.staged.claims h.segmentBelow
    refine ⟨hseg, hdistinct, fun x => ?_⟩
    rw [h.staged.writes] at hshared
    exact hshared x

end TakenEpoch

namespace VolumeFiles

/-- The ULIDs of an epoch lie above its WAL's and below the next WAL's. -/
structure Ok (s : VolumeFiles) : Prop where
  epochs : ∀ e ∈ s.taken, e.Ok
  apart : s.taken.Pairwise fun e e' => e.job.journalSegmentUlid < e'.wal.ulid
  minted : ∀ e ∈ s.taken, e.job.journalSegmentUlid ≤ s.last
  current : ∀ o, s.current = some o → o.wal.Staged o.pending ∧ o.wal.ulid ≤ s.last ∧
    ∀ e ∈ s.taken, e.job.journalSegmentUlid < o.wal.ulid

variable {s : VolumeFiles}

theorem ok_init (window : JournalRanges) : (init window).Ok :=
  ⟨by simp [init], List.Pairwise.nil, by simp [init], by simp [init]⟩

section

variable (wal : Ulid) {g : TakenEpoch → TakenEpoch} (hwal : ∀ e, (g e).wal = e.wal)
  (hjob : ∀ e, (g e).job = e.job)
include hwal hjob

/-- One epoch changes at most, and neither its WAL nor its job. -/
theorem same_onEpoch (e : TakenEpoch) : (if e.wal.ulid = wal then g e else e).wal = e.wal ∧
    (if e.wal.ulid = wal then g e else e).job = e.job := by
  split_ifs
  · exact ⟨hwal e, hjob e⟩
  · exact ⟨rfl, rfl⟩

theorem Ok.onEpoch (h : s.Ok) (hok : ∀ e, e.Ok → (g e).Ok) : (s.onEpoch wal g).Ok := by
  have hsame := same_onEpoch wal hwal hjob
  refine ⟨forall_mem_map.mpr fun e he => ?_, pairwise_map.mpr ?_, forall_mem_map.mpr ?_,
    fun o ho => ?_⟩
  · split_ifs
    · exact hok e (h.epochs e he)
    · exact h.epochs e he
  · simpa only [hsame] using h.apart
  · simp only [hsame]
    exact h.minted
  · obtain ⟨hstaged, hle, hlt⟩ := h.current o ho
    exact ⟨hstaged, hle, forall_mem_map.mpr (by simpa only [hsame] using hlt)⟩

end

theorem Ok.commit (h : s.Ok) {c : Commit} {ulid : Ulid} (hlegal : s.Legal (.commit c ulid)) :
    (s.step (.commit c ulid)).Ok := by
  obtain ⟨hfits, hfresh⟩ := hlegal
  cases hcur : s.current with
  | some o =>
    simp only [step, hcur]
    obtain ⟨hstaged, hle, hlt⟩ := h.current o hcur
    refine ⟨h.epochs, h.apart, h.minted, fun o' ho' => ?_⟩
    obtain rfl := Option.some.inj ho'
    exact ⟨hstaged.snoc (Commit.record_fits hfits) s.window, hle, hlt⟩
  | none =>
    simp only [step, hcur]
    have hlt := hfresh hcur
    refine ⟨h.epochs, h.apart, fun e he => (h.minted e he).trans hlt.le, fun o' ho' => ?_⟩
    obtain rfl := Option.some.inj ho'
    have hnew : WalFile.Staged ⟨ulid, []⟩ [] := ⟨by simp, by simp, rfl⟩
    exact ⟨hnew.snoc (Commit.record_fits hfits) s.window, le_refl _,
      fun e he => (h.minted e he).trans_lt hlt⟩

theorem Ok.take (h : s.Ok) {segmentUlid journalSegmentUlid : Ulid}
    (hlegal : s.last < segmentUlid ∧ segmentUlid < journalSegmentUlid)
    (derived : Option JournalRanges) (maps : MapLayers) :
    (s.step (.take segmentUlid journalSegmentUlid derived maps)).Ok := by
  cases hcur : s.current with
  | none =>
    simp only [step, hcur]
    exact h
  | some o =>
    simp only [step, hcur]
    obtain ⟨hlast, hlt⟩ := hlegal
    obtain ⟨hstaged, hle, hbelow⟩ := h.current o hcur
    refine ⟨forall_mem_append.mpr ⟨h.epochs, forall_mem_singleton.mpr
        ⟨hstaged, hle.trans_lt hlast, hlt, by simp, by simp⟩⟩, ?_,
      forall_mem_append.mpr
        ⟨fun e he => ((h.minted e he).trans_lt (hlast.trans hlt)).le,
          forall_mem_singleton.mpr le_rfl⟩, by simp⟩
    refine pairwise_append.mpr ⟨h.apart, pairwise_singleton _ _, fun e he e' he' => ?_⟩
    rw [mem_singleton.mp he']
    exact hbelow e he

theorem Ok.step (h : s.Ok) (a : Action) (hlegal : s.Legal a) : (s.step a).Ok := by
  cases a with
  | commit c ulid => exact h.commit hlegal
  | take segmentUlid journalSegmentUlid derived maps => exact h.take hlegal derived maps
  | promoted wal f =>
    exact Ok.onEpoch wal (fun e => e.wal_promoted f) (fun e => e.job_promoted f) h
      fun e he => he.promoted f
  | unlink wal =>
    exact Ok.onEpoch wal TakenEpoch.wal_unlink TakenEpoch.job_unlink h fun e he => he.unlink

/-- **Runs.** -/
theorem ok_run {window : JournalRanges} {as : List Action}
    (hlegal : Run.Each VolumeFiles.step Legal (init window) as) :
    (as.foldl VolumeFiles.step (init window)).Ok :=
  (Run.always_of_each (fun _ a hs ha => hs.step a ha) (ok_init window) hlegal).last

/-! ## The files on disk -/

/-- The committed segments answer epoch by epoch, the newest first. -/
theorem segments_of_epochs {es : List TakenEpoch} (hok : ∀ e ∈ es, e.Ok)
    (hapart : es.Pairwise fun e e' => e.job.journalSegmentUlid < e'.wal.ulid) :
    let segments := es.flatMap fun e => e.files.getD []
    (∀ seg ∈ segments, LbaMapBuilder.Flush seg ∧ ∃ e ∈ es,
      e.wal.ulid < seg.ulid ∧ seg.ulid ≤ e.job.journalSegmentUlid) ∧
    (∀ s ∈ segments, ∀ t ∈ segments, s.ulid = t.ulid → s = t) ∧
    ∀ x, (build segments).lookup x = es.reverse.findSome? fun e =>
      if e.files.isSome then e.wal.shared e.job.journalRanges x else none := by
  induction es with
  | nil => exact ⟨by simp, by simp, fun x => lookup_build_nil x⟩
  | cons e es ih =>
    obtain ⟨hbelow, hapart⟩ := pairwise_cons.mp hapart
    obtain ⟨hseg, hdistinct, hlook⟩ := ih (fun e he => hok e (mem_cons_of_mem _ he)) hapart
    have he := hok e mem_cons_self
    obtain ⟨hseg', hdistinct', hlook'⟩ := he.files_spec
    have hbounds : ∀ seg ∈ e.files.getD [],
        e.wal.ulid < seg.ulid ∧ seg.ulid ≤ e.job.journalSegmentUlid := by
      intro seg hs
      rcases (hseg' seg hs).2 with h | h
      · exact ⟨h ▸ he.walBelow, h ▸ he.segmentBelow.le⟩
      · exact ⟨h ▸ he.below, h ▸ le_refl _⟩
    have hlt : ∀ s ∈ e.files.getD [], ∀ t ∈ es.flatMap fun e => e.files.getD [],
        s.ulid < t.ulid := by
      intro s hs t ht
      obtain ⟨-, e', he', hlo, -⟩ := hseg t ht
      exact (hbounds s hs).2.trans_lt ((hbelow e' he').trans hlo)
    rw [flatMap_cons]
    have hall : ∀ seg ∈ e.files.getD [] ++ es.flatMap fun e => e.files.getD [],
        LbaMapBuilder.Flush seg ∧ ∃ e' ∈ e :: es,
          e'.wal.ulid < seg.ulid ∧ seg.ulid ≤ e'.job.journalSegmentUlid := by
      intro seg hs
      rcases mem_append.mp hs with hs | hs
      · exact ⟨(hseg' seg hs).1, e, mem_cons_self, hbounds seg hs⟩
      · obtain ⟨hf, e', he', hb⟩ := hseg seg hs
        exact ⟨hf, e', mem_cons_of_mem _ he', hb⟩
    have hdist := distinct_append hdistinct' hdistinct hlt
    refine ⟨hall, hdist, fun x => ?_⟩
    rw [lookup_build_append (fun s hs => (hall s hs).1) hdist hlt, hlook, hlook',
      reverse_cons, findSome?_append, findSome?_singleton]

theorem Ok.tidy (h : s.Ok) : s.disk.Tidy := by
  obtain ⟨hseg, hdistinct, -⟩ := segments_of_epochs h.epochs h.apart
  -- a WAL on disk is the open one or that of an epoch
  have hwal : ∀ wal ∈ s.disk.wals, (∃ o, s.current = some o ∧ o.wal = wal) ∨
      ∃ e ∈ s.taken, e.wal = wal := by
    intro wal hwal
    rcases mem_append.mp hwal with hwal | hwal
    · obtain ⟨e, he, rfl⟩ := mem_map.mp hwal
      exact .inr ⟨e, (mem_filter.mp he).1, rfl⟩
    · rw [Option.mem_toList, Option.map_eq_some_iff] at hwal
      exact .inl hwal
  have hcmp : ∀ a ∈ s.taken, ∀ b ∈ s.taken, a = b ∨
      a.job.journalSegmentUlid < b.wal.ulid ∨ b.job.journalSegmentUlid < a.wal.ulid :=
    List.Pairwise.forall_of_forall_of_flip (fun a _ => .inl rfl)
      (h.apart.imp fun hab => .inr (.inl hab)) (h.apart.imp fun hab => .inr (.inr hab))
  refine ⟨fun seg hs => (hseg seg hs).1, hdistinct, ?_, ?_, ?_⟩
  · refine pairwise_append.mpr ⟨?_, ?_, ?_⟩
    · refine pairwise_map.mpr ((h.apart.sublist filter_sublist).imp_of_mem ?_)
      intro a b ha _ hab
      exact (h.epochs a (mem_filter.mp ha).1).below.trans hab
    · cases s.current <;> simp
    · intro a ha b hb
      obtain ⟨e, he, rfl⟩ := mem_map.mp ha
      rw [Option.mem_toList, Option.map_eq_some_iff] at hb
      obtain ⟨o, ho, rfl⟩ := hb
      have hmem := (mem_filter.mp he).1
      exact (h.epochs e hmem).below.trans ((h.current o ho).2.2 e hmem)
  · intro wal hw seg hs heq
    obtain ⟨-, e, he, hlo, hhi⟩ := hseg seg hs
    rcases hwal wal hw with ⟨o, ho, rfl⟩ | ⟨e', he', rfl⟩
    · exact absurd heq (hhi.trans_lt ((h.current o ho).2.2 e he)).ne
    · rcases hcmp e he e' he' with rfl | hlt | hlt
      · exact absurd heq hlo.ne'
      · exact absurd heq (hhi.trans_lt hlt).ne
      · exact absurd heq (((h.epochs e' he').below.trans hlt).trans hlo).ne'
  · intro wal hw
    rcases hwal wal hw with ⟨o, ho, rfl⟩ | ⟨e, he, rfl⟩
    · exact (h.current o ho).1.fits
    · exact (h.epochs e he).staged.fits

end VolumeFiles

/-! ## Which files recover -/

/-- The newest of the WALs, oldest first, that covers `x`. -/
def WalFile.newest (wals : List WalFile) (x : ℕ) : Option WalFile :=
  wals.reverse.find? fun wal => (wal.last x).isSome

theorem findSome?_eq_bind_find? {α β : Type*} {g : α → Option β} {p : α → Bool} {l : List α}
    (h : ∀ a ∈ l, (g a).isSome = p a) : l.findSome? g = (l.find? p).bind g := by
  induction l with
  | nil => rfl
  | cons a l ih =>
    rw [findSome?_cons, find?_cons, ← h a mem_cons_self]
    cases hg : g a with
    | none => exact ih fun b hb => h b (mem_cons_of_mem _ hb)
    | some b => exact hg.symm

namespace WalFile

theorem findSome?_eq_newest {g : WalFile → Option (Hash × ℕ)} {x : ℕ}
    (hg : ∀ wal, (g wal).isSome = (wal.last x).isSome) (wals : List WalFile) :
    wals.reverse.findSome? g = (newest wals x).bind g :=
  findSome?_eq_bind_find? fun wal _ => hg wal

theorem mem_of_newest {wals : List WalFile} {x : ℕ} {wal : WalFile} (h : newest wals x = some wal) :
    wal ∈ wals ∧ (wal.last x).isSome = true :=
  ⟨mem_reverse.mp (mem_of_find?_eq_some h),
    find?_some (p := fun wal : WalFile => (wal.last x).isSome) h⟩

theorem newest_eq_none {wals : List WalFile} {x : ℕ} :
    newest wals x = none ↔ ∀ wal ∈ wals, wal.last x = none := by
  simp [newest]

theorem newest_append (old new : List WalFile) (x : ℕ) :
    newest (old ++ new) x = (newest new x).or (newest old x) := by
  rw [newest, reverse_append, find?_append]
  rfl

/-- The last write of a history is that of the newest WAL that covers the block. -/
theorem lastWrite_flatMap (wals : List WalFile) (x : ℕ) :
    lastWrite (wals.flatMap writes).reverse x = (newest wals x).bind fun wal => wal.last x := by
  rw [← findSome?_eq_newest fun _ => rfl]
  induction wals with
  | nil => rfl
  | cons wal wals ih =>
    rw [flatMap_cons, reverse_append, lastWrite_append, ih, reverse_cons,
      findSome?_append, findSome?_singleton]
    rfl

end WalFile

/-- Once promoted, every WAL but the last answers as its shares. -/
theorem Disk.repromoted_eq (disk : Disk) (window : JournalRanges) (x : ℕ) :
    disk.repromoted window x = (newest disk.wals x).bind fun wal =>
      if disk.wals.getLast? = some wal then wal.last x else wal.shared window x := by
  rw [repromoted, findSome?_eq_newest fun wal => wal.isSome_shared window x]
  cases hlast : disk.wals.getLast? with
  | none => rw [getLast?_eq_none_iff.mp hlast]; rfl
  | some wal =>
    conv_rhs => rw [← dropLast_append_getLast? wal hlast, newest_append]
    have hsingle : newest [wal] x = if (wal.last x).isSome then some wal else none := by
      rw [newest, reverse_singleton, find?_singleton]
    rw [hsingle, Option.bind_some]
    cases hx : wal.last x with
    | some v =>
      rw [Option.isSome_some, if_pos rfl, Option.some_or, Option.some_or, Option.bind_some,
        if_pos rfl, hx]
    | none =>
      rw [Option.isSome_none, if_neg Bool.false_ne_true, Option.none_or, Option.none_or]
      cases hnew : newest disk.wals.dropLast x with
      | none => rfl
      | some w =>
        have hne : ¬ some wal = some w := by
          rintro ⟨⟩
          have := (mem_of_newest hnew).2
          rw [hx] at this
          cases this
        rw [Option.bind_some, Option.bind_some, if_neg hne]

namespace VolumeFiles

/-- The newest taken epoch that covers `x`. -/
def newestTaken (s : VolumeFiles) (x : ℕ) : Option TakenEpoch :=
  s.taken.reverse.find? fun e => (e.wal.last x).isSome

/-- The files of which an open under `window` reads the last write.

A WAL on disk answers for a block although later epochs, their WALs gone, may have written it
again; a promote stores its journal share above the rest of the epoch although records of the rest
may be later. -/
structure Sound (s : VolumeFiles) (window : JournalRanges) : Prop where
  /-- The newest WAL on disk that covers a block has its last write. -/
  replay : ∀ x wal, newest s.disk.wals x = some wal →
    ∀ wal', newest s.epochs x = some wal' → wal.last x = wal'.last x
  /-- Its shares have it too, unless the WAL is reopened. -/
  repromote : ∀ x wal, newest s.disk.wals x = some wal →
    s.disk.wals.getLast? ≠ some wal → wal.shared window x = wal.last x
  /-- Where no WAL on disk covers a block, the shares of the last epoch that wrote it have it. -/
  rebuild : ∀ x, newest s.disk.wals x = none →
    ∀ e, s.newestTaken x = some e → e.wal.shared e.job.journalRanges x = e.wal.last x

variable {s : VolumeFiles}

theorem disk_wals_subset {wal : WalFile} (h : wal ∈ s.disk.wals) : wal ∈ s.epochs := by
  rcases mem_append.mp h with h | h
  · obtain ⟨e, he, rfl⟩ := mem_map.mp h
    exact mem_append_left _ (mem_map_of_mem (mem_filter.mp he).1)
  · exact mem_append_right _ h

/-- Where no WAL on disk covers `x`, the last epoch that wrote it has been committed. -/
theorem Ok.lookup_of_newest_eq_none (h : s.Ok) {x : ℕ} (hx : newest s.disk.wals x = none) :
    (build s.disk.segments).lookup x =
        ((s.newestTaken x).bind fun e => e.wal.shared e.job.journalRanges x) ∧
      lastWrite s.history x = (s.newestTaken x).bind fun e => e.wal.last x := by
  have hnone := newest_eq_none.mp hx
  have hcommitted : ∀ e ∈ s.taken, (if e.files.isSome then e.wal.shared e.job.journalRanges x
      else none) = e.wal.shared e.job.journalRanges x := by
    intro e he
    split_ifs with hfiles
    · rfl
    · have hlinked : e.unlinked = false := by
        rw [← Bool.not_eq_true]
        exact fun hun => hfiles ((h.epochs e he).unlinked hun)
      have hlast : e.wal.last x = none := hnone e.wal (mem_append_left _
        (mem_map_of_mem (mem_filter.mpr ⟨he, by rw [hlinked]; rfl⟩)))
      have hshared := e.wal.isSome_shared e.job.journalRanges x
      rw [hlast, Option.isSome_none, Option.isSome_eq_false_iff, Option.isNone_iff_eq_none] at hshared
      exact hshared.symm
  constructor
  · rw [disk, (segments_of_epochs h.epochs h.apart).2.2, newestTaken,
      findSome?_eq_bind_find? (p := fun e => (e.wal.last x).isSome)]
    · cases hfind : s.taken.reverse.find? fun e => (e.wal.last x).isSome with
      | none => rfl
      | some e => exact hcommitted e (mem_reverse.mp (mem_of_find?_eq_some hfind))
    · intro e he
      rw [hcommitted e (mem_reverse.mp he), isSome_shared]
  · have hopen : newest (s.current.map OpenEpoch.wal).toList x = none :=
      newest_eq_none.mpr fun wal hwal => hnone wal (mem_append_right _ hwal)
    rw [history, lastWrite_flatMap, VolumeFiles.epochs, newest_append, hopen, Option.none_or,
      newest, ← map_reverse, find?_map, Option.bind_map]
    rfl

/-- **Files recover exactly when they are sound.** -/
theorem Ok.recovers_iff (h : s.Ok) (window window' : JournalRanges) (env env' : OpenEnv) :
    s.Recovers window window' env env' ↔ s.Sound window := by
  obtain ⟨maps, disk, hopen, htidy, hreads, hleft⟩ := openImpl_spec h.tidy window env
  obtain ⟨maps', disk', hopen', -, hreads', -⟩ := openImpl_spec htidy window' env'
  have hreplayed : ∀ x, s.disk.replayed x =
      (newest s.disk.wals x).bind fun wal => wal.last x := fun x =>
    findSome?_eq_newest (fun _ => rfl) _
  have hopened : ∀ x wal, newest s.disk.wals x = some wal →
      maps.lbamap.lookup x = wal.last x ∧ maps'.lbamap.lookup x =
        if s.disk.wals.getLast? = some wal then wal.last x else wal.shared window x := by
    intro x wal hwal
    have hsome := (mem_of_newest hwal).2
    rw [hreads, hreads', hleft, hreplayed, Disk.repromoted_eq, hwal, Option.bind_some,
      Option.bind_some]
    refine ⟨Option.or_of_isSome hsome, Option.or_of_isSome ?_⟩
    split_ifs
    · exact hsome
    · rw [isSome_shared]
      exact hsome
  have hrebuilt : ∀ x, newest s.disk.wals x = none →
      maps.lbamap.lookup x = (s.newestTaken x).bind (fun e => e.wal.shared e.job.journalRanges x) ∧
      maps'.lbamap.lookup x = maps.lbamap.lookup x := by
    intro x hx
    rw [hreads, hreads', hleft, hreplayed, Disk.repromoted_eq, hx, (h.lookup_of_newest_eq_none hx).1]
    exact ⟨rfl, rfl⟩
  have hlast : ∀ x, lastWrite s.history x =
      (newest s.epochs x).bind fun wal => wal.last x := fun x =>
    lastWrite_flatMap s.epochs x
  constructor
  · rintro ⟨m, d, m', d', hm, hm', hx⟩
    obtain ⟨rfl, rfl⟩ : maps = m ∧ disk = d := by simpa using hopen.symm.trans hm
    obtain ⟨rfl, rfl⟩ : maps' = m' ∧ disk' = d' := by simpa using hopen'.symm.trans hm'
    refine ⟨fun x wal hwal wal' hwal' => ?_, fun x wal hwal hne => ?_, fun x hnone e he => ?_⟩
    · have := (hx x).1
      rwa [(hopened x wal hwal).1, hlast, hwal'] at this
    · have := (hx x).2.trans (hx x).1.symm
      rwa [(hopened x wal hwal).1, (hopened x wal hwal).2, if_neg hne] at this
    · have := (hx x).1
      rwa [(hrebuilt x hnone).1, (h.lookup_of_newest_eq_none hnone).2, he] at this
  · intro hs
    refine ⟨maps, disk, maps', disk', hopen, hopen', fun x => ?_⟩
    cases hwal : newest s.disk.wals x with
    | none =>
      obtain ⟨hm, hm'⟩ := hrebuilt x hwal
      have hread : maps.lbamap.lookup x = lastWrite s.history x := by
        rw [hm, (h.lookup_of_newest_eq_none hwal).2]
        cases he : s.newestTaken x with
        | none => rfl
        | some e => exact hs.rebuild x hwal e he
      exact ⟨hread, hm'.trans hread⟩
    | some wal =>
      obtain ⟨hm, hm'⟩ := hopened x wal hwal
      have hread : wal.last x = lastWrite s.history x := by
        rw [hlast]
        cases hwal' : newest s.epochs x with
        | none =>
          -- the WAL on disk is that of an epoch
          obtain ⟨hmem, hsome⟩ := mem_of_newest hwal
          rw [newest_eq_none.mp hwal' wal (disk_wals_subset hmem)] at hsome
          cases hsome
        | some wal' => exact hs.replay x wal hwal wal' hwal'
      refine ⟨hm.trans hread, hm'.trans ?_⟩
      split_ifs with hend
      · exact hread
      · exact (hs.repromote x wal hwal hend).trans hread

/-! ## Runs that recover -/

/-- WALs went oldest first, and no record crosses a boundary of a window it is promoted under. -/
structure InOrder (s : VolumeFiles) (window : JournalRanges) : Prop where
  window_eq : s.window = window
  unlinked : s.taken.Pairwise fun e e' => e'.unlinked = true → e.unlinked = true
  aligned : ∀ wal ∈ s.epochs, wal.Aligned window
  ranges : ∀ e ∈ s.taken, e.job.journalRanges = window

/-- The epochs whose WALs are gone come first. -/
theorem filter_unlinked_append {es : List TakenEpoch}
    (h : es.Pairwise fun e e' => e'.unlinked = true → e.unlinked = true) :
    es.filter TakenEpoch.unlinked ++ es.filter (fun e => !e.unlinked) = es := by
  induction es with
  | nil => rfl
  | cons e es ih =>
    obtain ⟨hhead, htail⟩ := pairwise_cons.mp h
    cases he : e.unlinked with
    | true =>
      rw [filter_cons_of_pos he, filter_cons_of_neg (by simp [he]), cons_append, ih htail]
    | false =>
      have hlinked : ∀ e' ∈ es, e'.unlinked = false := by
        intro e' he'
        rw [← Bool.not_eq_true]
        exact fun hun => absurd (hhead e' he' hun) (by simp [he])
      rw [filter_eq_nil_iff.mpr (by simpa [he] using hlinked),
        filter_eq_self.mpr (by simpa [he] using hlinked), nil_append]

variable {window : JournalRanges}

section

variable (h : s.InOrder window)
include h

theorem InOrder.sound : s.Sound window := by
  have hsplit : s.epochs = (s.taken.filter TakenEpoch.unlinked).map TakenEpoch.wal ++ s.disk.wals := by
    rw [epochs, disk, ← append_assoc, ← map_append, filter_unlinked_append h.unlinked]
  refine ⟨fun x wal hwal wal' hwal' => ?_, fun x wal hwal _ => ?_, fun x _ e he => ?_⟩
  · rw [hsplit, newest_append, hwal] at hwal'
    obtain rfl := Option.some.inj hwal'
    rfl
  · exact (h.aligned wal (disk_wals_subset (mem_of_newest hwal).1)).shared_eq x
  · have hmem : e ∈ s.taken := mem_reverse.mp (mem_of_find?_eq_some he)
    rw [h.ranges e hmem]
    exact (h.aligned e.wal (mem_append_left _ (mem_map_of_mem hmem))).shared_eq x

/-- A step of a volume that keeps its window, splits its writes at the boundaries, and unlinks a
WAL only after all older ones. -/
def Orderly (s : VolumeFiles) : Action → Prop
  | .commit c _ => s.window.crossesBoundary c.record.write.startLba c.record.write.lbaLength = false
  | .take _ _ derived _ => derived = none
  | .promoted .. => True
  | .unlink wal => ∀ e ∈ s.taken, e.wal.ulid < wal → e.unlinked = true

instance (s : VolumeFiles) : ∀ a, Decidable (s.Orderly a)
  | .commit .. => inferInstanceAs (Decidable (_ = _))
  | .take _ _ derived _ => inferInstanceAs (Decidable (derived = none))
  | .promoted .. => isTrue trivial
  | .unlink wal => inferInstanceAs (Decidable (∀ e ∈ s.taken, e.wal.ulid < wal → e.unlinked = true))

/-- An update of one epoch that leaves its WAL and job alone. -/
theorem InOrder.onEpoch (wal : Ulid) {g : TakenEpoch → TakenEpoch} (hwal : ∀ e, (g e).wal = e.wal)
    (hjob : ∀ e, (g e).job = e.job)
    (hunlinked : (s.onEpoch wal g).taken.Pairwise fun e e' => e'.unlinked = true → e.unlinked = true) :
    (s.onEpoch wal g).InOrder window := by
  have hsame := same_onEpoch wal hwal hjob
  have hepochs : (s.onEpoch wal g).epochs = s.epochs := by
    rw [epochs, VolumeFiles.onEpoch, map_map]
    exact congrArg (· ++ _) (map_congr_left fun e _ => (hsame e).1)
  refine ⟨h.window_eq, hunlinked, ?_, forall_mem_map.mpr (by simpa only [hsame] using h.ranges)⟩
  rw [hepochs]
  exact h.aligned

theorem InOrder.commit {c : Commit}
    (hc : window.crossesBoundary c.record.write.startLba c.record.write.lbaLength = false)
    (ulid : Ulid) : (s.step (.commit c ulid)).InOrder window := by
  have htaken : ∀ wal ∈ s.taken.map TakenEpoch.wal, wal.Aligned window := fun wal hwal =>
    h.aligned wal (mem_append_left _ hwal)
  cases hcur : s.current with
  | some o =>
    simp only [VolumeFiles.step, hcur]
    have hopen := h.aligned o.wal (mem_append_right _ (by simp [hcur]))
    exact ⟨h.window_eq, h.unlinked, forall_mem_append.mpr ⟨htaken, forall_mem_singleton.mpr
      (forall_mem_append.mpr ⟨hopen, forall_mem_singleton.mpr hc⟩)⟩, h.ranges⟩
  | none =>
    simp only [VolumeFiles.step, hcur]
    exact ⟨h.window_eq, h.unlinked, forall_mem_append.mpr ⟨htaken, forall_mem_singleton.mpr
      (forall_mem_singleton.mpr hc)⟩, h.ranges⟩

theorem InOrder.take (segmentUlid journalSegmentUlid : Ulid) (maps : MapLayers) :
    (s.step (.take segmentUlid journalSegmentUlid none maps)).InOrder window := by
  cases hcur : s.current with
  | none =>
    simp only [VolumeFiles.step, hcur]
    exact h
  | some o =>
    simp only [VolumeFiles.step, hcur]
    refine ⟨h.window_eq, ?_, fun wal hwal => h.aligned wal ?_,
      forall_mem_append.mpr ⟨h.ranges, forall_mem_singleton.mpr ?_⟩⟩
    · refine pairwise_append.mpr ⟨h.unlinked, pairwise_singleton _ _, fun e _ e' he' => ?_⟩
      rw [mem_singleton.mp he']
      exact fun hun => absurd hun (by simp)
    · rw [epochs, hcur]
      simpa [epochs] using hwal
    · exact h.window_eq

theorem InOrder.step (hok : s.Ok) (a : Action) (ha : s.Orderly a) : (s.step a).InOrder window := by
  cases a with
  | commit c ulid =>
    rw [Orderly, h.window_eq] at ha
    exact h.commit ha ulid
  | take segmentUlid journalSegmentUlid derived maps =>
    obtain rfl : derived = none := ha
    exact h.take segmentUlid journalSegmentUlid maps
  | promoted wal f =>
    refine h.onEpoch wal (fun e => e.wal_promoted f) (fun e => e.job_promoted f) ?_
    refine pairwise_map.mpr (h.unlinked.imp fun {e e'} hun => ?_)
    have hsame : ∀ e : TakenEpoch,
        (if e.wal.ulid = wal then e.promoted f else e).unlinked = e.unlinked := by
      intro e
      split_ifs <;> simp
    rw [hsame, hsame]
    exact hun
  | unlink wal =>
    refine h.onEpoch wal TakenEpoch.wal_unlink TakenEpoch.job_unlink ?_
    refine pairwise_map.mpr ((h.unlinked.and hok.apart).imp_of_mem ?_)
    rintro e e' he - ⟨hun, hlt⟩ hun'
    have hold : e.unlinked = true := by
      split_ifs at hun' with hwal
      · exact ha e he (hwal ▸ (hok.epochs e he).below.trans hlt)
      · exact hun hun'
    split_ifs
    · exact e.unlinked_unlink hold
    · exact hold

end

theorem inOrder_run {as : List Action}
    (has : Run.Each VolumeFiles.step (fun s a => s.Legal a ∧ s.Orderly a) (init window) as) :
    Run.Always VolumeFiles.step (fun s => s.Ok ∧ s.InOrder window) (init window) as := by
  refine Run.always_of_each (fun s a hs ha => ⟨hs.1.step a ha.1, hs.2.step hs.1 a ha.2⟩)
    ⟨ok_init window, rfl, List.Pairwise.nil, ?_, ?_⟩ has
  · simp [epochs, init]
  · simp [init]

/-- **A volume that unlinks its WALs oldest first recovers**, at every crash point, if it keeps the
window its records were split at. -/
theorem orderly_run_recovers {as : List Action}
    (has : Run.Each VolumeFiles.step (fun s a => s.Legal a ∧ s.Orderly a) (init window) as)
    (window' : JournalRanges) (env env' : OpenEnv) :
    Run.Always VolumeFiles.step (fun s => s.Recovers window window' env env') (init window) as :=
  (inOrder_run has).mono fun _ hs => (hs.1.recovers_iff window window' env env').mpr hs.2.sound

/-- **Crash recovery.** Whatever the order in which promotes were committed and WALs unlinked, an
open after a crash and the next one read the last write of every block exactly if the files are
sound. -/
theorem crash_recovers_iff {window₀ : JournalRanges} {as : List Action}
    (hlegal : Run.Each VolumeFiles.step Legal (init window₀) as) (window window' : JournalRanges)
    (env env' : OpenEnv) :
    (as.foldl VolumeFiles.step (init window₀)).Recovers window window' env env' ↔
      (as.foldl VolumeFiles.step (init window₀)).Sound window :=
  (ok_run hlegal).recovers_iff window window' env env'

/-- Write a block, promote it, write it again. -/
def promotedInOrder : List Action :=
  [.commit (.write 0 1 7 .none 4096 0) 1, .take 2 3 none (.new .empty),
    .commit (.write 0 1 8 .none 4096 0) 4, .promoted 1 .plain, .unlink 1]

theorem crash_recovers_in_order :
    Run.Each VolumeFiles.step Legal (init .EMPTY) promotedInOrder ∧ ∀ env env' : OpenEnv,
      (promotedInOrder.foldl VolumeFiles.step (init .EMPTY)).Recovers .EMPTY .EMPTY env env' := by
  have has : Run.Each VolumeFiles.step (fun s a => s.Legal a ∧ s.Orderly a) (init .EMPTY)
      promotedInOrder := by
    decide
  have hlegal := has.mono fun _ _ => And.left
  exact ⟨hlegal, fun env env' => (crash_recovers_iff hlegal .EMPTY .EMPTY env env').mpr
    (inOrder_run has).last.2.sound⟩

theorem orderly_run_recovers_promoted :
    Run.Each VolumeFiles.step (fun s a => s.Legal a ∧ s.Orderly a) (init .EMPTY) promotedInOrder ∧
      ∀ env env' : OpenEnv, Run.Always VolumeFiles.step
        (fun s => s.Recovers .EMPTY .EMPTY env env') (init .EMPTY) promotedInOrder := by
  refine ⟨?_, orderly_run_recovers ?_ .EMPTY⟩ <;> decide

/-- Write a block twice, in two epochs. The second one is committed and its WAL unlinked while the
promote of the first is stashed. -/
def promotedOutOfOrder : List Action :=
  [.commit (.write 0 1 7 .none 4096 0) 1, .take 2 3 none (.new .empty),
    .commit (.write 0 1 8 .none 4096 0) 4, .take 5 6 none (.new .empty), .promoted 4 .plain, .unlink 4]

/-- The open reads the first write. -/
theorem stashed_wal_overrides_later_epoch :
    Run.Each VolumeFiles.step Legal (init .EMPTY) promotedOutOfOrder ∧ ∀ env env' : OpenEnv,
      ¬ (promotedOutOfOrder.foldl VolumeFiles.step (init .EMPTY)).Recovers .EMPTY .EMPTY env env' := by
  have hlegal : Run.Each VolumeFiles.step Legal (init .EMPTY) promotedOutOfOrder := by
    decide
  refine ⟨hlegal, fun env env' h => ?_⟩
  have hreplay := (((ok_run hlegal).recovers_iff .EMPTY .EMPTY env env').mp h).replay 0
    ⟨1, [.data 7 0 1 .none 0 4096]⟩ rfl ⟨4, [.data 8 0 1 .none 0 4096]⟩ rfl
  exact absurd hreplay (by decide)

end VolumeFiles

end Elide
