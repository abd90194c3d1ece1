import Elide.Actor.Pipeline
import Elide.Lib.Run

/-!
# Sealing generations in write order

Promoted segments collect in `pending/open` until `rotate_open_generation` renames that directory
to `pending/upload`, which seals a generation: what a cut publishes is a sealed generation and all
those before it. A cut is a state the device was in only if the sealed generations are downwards
closed in write order, that is, never hold a segment of an epoch without all segments of every
epoch before it.

The worker executes promotes in the order the actor dispatched them, so the order on disk is the
write order as long as nothing fails. A failed promote leaves that order: it waits in
`failed_promotes` while later epochs commit, and the rotate looks at the directory alone.

## Main results

* `Sealing.downClosed_iff_sealsInOrder`: a run keeps every sealed state downwards closed exactly
  when every rotate that seals finds no outstanding promote with a file still to write of an epoch
  before one in `pending/open`.
* `Sealing.downClosed_of_succeeds`: so it is when every dispatch and every promote succeeds.
* `Sealing.seals_second_epoch_first`: two failures and one retry are enough to break it.
-/

namespace Elide

open List Pipeline Option Nat

/-- The two segments an epoch can commit. -/
inductive EpochPart
  | data
  | journal
  deriving DecidableEq, Repr

/-- The promote of one WAL epoch. `data` and `journal` say which of its partitions have entries:
an empty partition writes no file. -/
structure EpochJob where
  epoch : ℕ
  data : Bool
  journal : Bool
  deriving DecidableEq, Repr

/-- The files `write_promote` commits, in the order it commits them. -/
def EpochJob.files (job : EpochJob) : List EpochPart :=
  (if job.data then [.data] else []) ++ (if job.journal then [.journal] else [])

/-- A segment file, by the epoch it holds and its part of it. -/
abbrev EpochSegment := ℕ × EpochPart

/-- The actor, its worker and the generation directories, as far as sealing depends on them. -/
structure Sealing where
  /-- The epoch of the current WAL. -/
  next : ℕ
  /-- Every promote taken so far. -/
  taken : List EpochJob
  pipeline : Pipeline EpochJob Unit
  /-- How many of its files the running promote has committed. -/
  written : ℕ
  /-- `pending/open`. -/
  openGen : List EpochSegment
  /-- `pending/upload`. -/
  upload : List EpochSegment
  /-- What each rotate sealed, oldest first. -/
  sealedGens : List (List EpochSegment)

namespace Sealing

/-- What the actor and the worker do. -/
inductive Action
  /-- Rotate the WAL and dispatch its promote (`send_promote_job`). -/
  | take (data journal sent : Bool)
  /-- `retry_failed_promote`. -/
  | retry (sent : Bool)
  /-- The worker picks up the next promote. -/
  | start
  /-- `write_and_commit` of the running promote's next file. -/
  | commit
  /-- The running promote fails, before, between or after its commits. -/
  | fail
  /-- The running promote returns, all its files committed. -/
  | finish
  /-- The actor handles the oldest result. -/
  | settle
  /-- `rotate_open_generation`. -/
  | rotate
  /-- The upload generation is drained. -/
  | drain
  deriving DecidableEq, Repr

variable (s : Sealing)

/-- The next file of the running promote and the job it belongs to. -/
def nextFile : Option EpochSegment :=
  s.pipeline.running.bind fun job => (job.files[s.written]?).map fun f => (job.epoch, f)

/-- The running promote has committed all its files. -/
def allWritten : Bool :=
  s.pipeline.running.any fun job => job.files.length ≤ s.written

/-- `rotate_open_generation`: an error while the upload generation is not drained, nothing to do
when the open one is empty. -/
def rotateOpenGeneration : Sealing :=
  if s.upload ≠ [] then s
  else if s.openGen = [] then s
  else
    { s with upload := s.openGen, openGen := [], sealedGens := s.sealedGens ++ [s.openGen] }

/-- One event. -/
def step : Action → Sealing
  | .take data journal sent =>
    let job : EpochJob := { epoch := s.next, data, journal }
    { s with
      next := s.next + 1
      taken := s.taken ++ [job]
      pipeline := s.pipeline.sendPromoteJob job sent }
  | .retry sent => { s with pipeline := s.pipeline.retryFailedPromote sent }
  | .start =>
    -- A worker that is executing a promote does not pick up another.
    if s.pipeline.running.isSome then s else { s with pipeline := s.pipeline.start, written := 0 }
  | .commit =>
    match s.nextFile with
    | none => s
    | some seg => { s with openGen := s.openGen ++ [seg], written := s.written + 1 }
  | .fail => { s with pipeline := s.pipeline.finish none, written := 0 }
  | .finish =>
    if s.allWritten then { s with pipeline := s.pipeline.finish (some ()), written := 0 } else s
  | .settle => { s with pipeline := s.pipeline.settle }
  | .rotate => s.rotateOpenGeneration
  | .drain => { s with upload := [] }

/-- An actor just started over empty generations. -/
def init : Sealing :=
  { next := 0, taken := [], pipeline := .empty, written := 0, openGen := [], upload := [],
    sealedGens := [] }

/-- All that is sealed: the segments of every cut published up to now. -/
def sealedSegments : List EpochSegment := s.sealedGens.flatten

/-- Every segment committed so far, sealed or not. -/
def committed : List EpochSegment := s.sealedSegments ++ s.openGen

/-- **Downwards closed in write order.** Whenever a segment of an epoch is sealed, so is every
segment of every epoch before it. -/
def DownClosed : Prop :=
  ∀ seg ∈ s.sealedSegments, ∀ job ∈ s.taken, job.epoch < seg.1 →
    ∀ f ∈ job.files, (job.epoch, f) ∈ s.sealedSegments

/-- No promote that still has a file to write is of an epoch before one in `pending/open`. -/
def SealsInOrder : Prop :=
  ∀ job ∈ s.pipeline.outstanding, ∀ f ∈ job.files, (job.epoch, f) ∉ s.committed →
    ∀ seg ∈ s.openGen, seg.1 ≤ job.epoch

/-- The condition on a step: a rotate that can seal does so in order. -/
def SealsInOrderAt (a : Action) : Prop :=
  a = .rotate → s.upload = [] → s.SealsInOrder

/-! ### What the pipeline and the directories agree on -/

/-- All files of `job` are committed. -/
def Written (job : EpochJob) : Prop :=
  ∀ f ∈ job.files, (job.epoch, f) ∈ s.committed

/-- A promote is given up only once all its files are on disk. -/
structure Ok (s : Sealing) : Prop where
  taken_lt : ∀ job ∈ s.taken, job.epoch < s.next
  committed_lt : ∀ seg ∈ s.committed, seg.1 < s.next
  outstanding_taken : ∀ job ∈ s.pipeline.outstanding, job ∈ s.taken
  outstanding_or_written : ∀ job ∈ s.taken, job ∈ s.pipeline.outstanding ∨ s.Written job
  running_written : ∀ job, s.pipeline.running = some job →
    ∀ f ∈ job.files.take s.written, (job.epoch, f) ∈ s.committed
  result_written : ∀ job, (job, some ()) ∈ s.pipeline.results → s.Written job

variable {s : Sealing}

theorem mem_committed {seg : EpochSegment} :
    seg ∈ s.committed ↔ seg ∈ s.sealedSegments ∨ seg ∈ s.openGen :=
  mem_append

theorem ok_init : Ok init where
  taken_lt := by simp [init]
  committed_lt := by simp [init, committed, sealedSegments]
  outstanding_taken := by simp [init]
  outstanding_or_written := by simp [init]
  running_written := by simp [init]
  result_written := by simp [init, empty]

/-- A rotate moves the open segments, it commits none and loses none. -/
theorem committed_rotate (s : Sealing) : s.rotateOpenGeneration.committed = s.committed := by
  unfold rotateOpenGeneration
  split_ifs <;> simp [committed, sealedSegments]

/-- The file committed next is the one after those already written. -/
theorem nextFile_eq_some {seg : EpochSegment} (h : s.nextFile = some seg) :
    ∃ job, s.pipeline.running = some job ∧ ∃ f, job.files[s.written]? = some f ∧
      seg = (job.epoch, f) := by
  obtain ⟨job, hrun, hseg⟩ := bind_eq_some_iff.mp h
  obtain ⟨f, hf, rfl⟩ := map_eq_some_iff.mp hseg
  exact ⟨job, hrun, f, hf, rfl⟩

namespace Ok

variable {s : Sealing}

section

variable (h : s.Ok)
include h

theorem take (data journal sent : Bool) : (s.step (.take data journal sent)).Ok where
  taken_lt := forall_mem_append.mpr ⟨fun job hjob => lt_succ_of_lt (h.taken_lt job hjob),
    forall_mem_singleton.mpr (lt_succ_self s.next)⟩
  committed_lt := fun seg hseg => lt_succ_of_lt (h.committed_lt seg hseg)
  outstanding_taken := by
    intro job hjob
    rcases mem_outstanding_sendPromoteJob.mp hjob with rfl | hjob
    · exact mem_append_right _ (mem_singleton_self _)
    · exact mem_append_left _ (h.outstanding_taken job hjob)
  outstanding_or_written := by
    intro job hjob
    rcases mem_append.mp hjob with hjob | hjob
    · refine (h.outstanding_or_written job hjob).imp_left fun hout => ?_
      exact mem_outstanding_sendPromoteJob.mpr (.inr hout)
    · exact .inl (mem_outstanding_sendPromoteJob.mpr (.inl (mem_singleton.mp hjob)))
  running_written := by
    intro job hrun
    exact h.running_written job (by simpa [step] using hrun)
  result_written := by
    intro job hres
    exact h.result_written job (by simpa [step] using hres)

/-- A step of the pipeline that neither adds nor gives up a job, and reports no new success, keeps
the agreement with the directories. -/
theorem of_pipeline {p : Pipeline EpochJob Unit} {w : ℕ}
    (hout : ∀ job, job ∈ p.outstanding ↔ job ∈ s.pipeline.outstanding)
    (hrun : ∀ job, p.running = some job → ∀ f ∈ job.files.take w, (job.epoch, f) ∈ s.committed)
    (hres : ∀ job, (job, some ()) ∈ p.results → s.Written job) :
    Ok { s with pipeline := p, written := w } where
  taken_lt := h.taken_lt
  committed_lt := h.committed_lt
  outstanding_taken := fun job hjob => h.outstanding_taken job ((hout job).mp hjob)
  outstanding_or_written := fun job hjob =>
    (h.outstanding_or_written job hjob).imp_left (hout job).mpr
  running_written := hrun
  result_written := hres

theorem retry (sent : Bool) : (s.step (.retry sent)).Ok := by
  refine h.of_pipeline (fun _ => mem_outstanding_retryFailedPromote) ?_ ?_
  · intro job hrun
    exact h.running_written job (by simpa using hrun)
  · intro job hres
    exact h.result_written job (by simpa using hres)

theorem start : (s.step .start).Ok := by
  simp only [step]
  split_ifs
  · exact h
  · refine h.of_pipeline (fun _ => mem_outstanding_start) (by simp) ?_
    intro job hres
    exact h.result_written job (by simpa using hres)

theorem commit : (s.step .commit).Ok := by
  simp only [step]
  match hn : s.nextFile with
  | none => exact h
  | some seg =>
    obtain ⟨job, hrun, f, hf, rfl⟩ := nextFile_eq_some hn
    have hgrow : ∀ x ∈ s.committed, x ∈ s.sealedSegments ++ (s.openGen ++ [(job.epoch, f)]) := by
      intro x hx
      rw [← append_assoc]
      exact mem_append_left _ hx
    have hnew : (job.epoch, f) ∈ s.sealedSegments ++ (s.openGen ++ [(job.epoch, f)]) := by simp
    refine ⟨h.taken_lt, ?_, h.outstanding_taken, ?_, ?_, ?_⟩
    · rw [committed, ← append_assoc]
      exact forall_mem_append.mpr ⟨h.committed_lt, forall_mem_singleton.mpr
        (h.taken_lt job (h.outstanding_taken job (mem_outstanding_of_running hrun)))⟩
    · intro j hj
      exact (h.outstanding_or_written j hj).imp_right fun hw g hg => hgrow _ (hw g hg)
    · intro j hj g hg
      obtain rfl : job = j := mem_unique hrun hj
      -- The file just written is the one `take` now reaches.
      rw [take_add_one, hf] at hg
      rcases mem_append.mp hg with hg | hg
      · exact hgrow _ (h.running_written job hrun g hg)
      · rw [mem_singleton.mp hg]
        exact hnew
    · exact fun j hj g hg => hgrow _ (h.result_written j hj g hg)

theorem fail : (s.step .fail).Ok := by
  refine h.of_pipeline (fun _ => mem_outstanding_finish) (by simp) ?_
  intro job hres
  rcases mem_results_finish hres with hres | ⟨-, hnone⟩
  · exact h.result_written job hres
  · cases hnone

theorem finish : (s.step .finish).Ok := by
  simp only [step]
  split_ifs with hall
  · refine h.of_pipeline (fun _ => mem_outstanding_finish) (by simp) ?_
    intro job hres
    rcases mem_results_finish hres with hres | ⟨hrun, -⟩
    · exact h.result_written job hres
    · have hlen : job.files.length ≤ s.written := by simpa [allWritten, hrun] using hall
      intro f hf
      exact h.running_written job hrun f (by rwa [take_of_length_le hlen])
  · exact h

theorem settle : (s.step .settle).Ok where
  taken_lt := h.taken_lt
  committed_lt := h.committed_lt
  outstanding_taken := fun job hjob =>
    h.outstanding_taken job (mem_outstanding_of_mem_settle hjob)
  outstanding_or_written := by
    intro job hjob
    rcases h.outstanding_or_written job hjob with hout | hw
    · refine (mem_settle_or_result hout).imp_right ?_
      rintro ⟨r, rest, hres⟩
      exact h.result_written job (by rw [hres]; exact mem_cons_self)
    · exact .inr hw
  running_written := by
    intro job hrun
    exact h.running_written job (by simpa [step] using hrun)
  result_written := fun job hres =>
    h.result_written job (mem_results_of_mem_settle hres)

theorem rotate : (s.step .rotate).Ok := by
  have hc : (s.step .rotate).committed = s.committed := committed_rotate s
  have hsame : (s.step .rotate).next = s.next ∧ (s.step .rotate).taken = s.taken ∧
      (s.step .rotate).pipeline = s.pipeline ∧ (s.step .rotate).written = s.written := by
    simp only [step, rotateOpenGeneration]
    split_ifs <;> exact ⟨rfl, rfl, rfl, rfl⟩
  obtain ⟨hn, ht, hp, hw⟩ := hsame
  constructor
  · rw [hn, ht]; exact h.taken_lt
  · rw [hn, hc]; exact h.committed_lt
  · rw [hp, ht]; exact h.outstanding_taken
  · simp only [Written, hp, ht, hc]; exact h.outstanding_or_written
  · rw [hp, hw, hc]; exact h.running_written
  · simp only [Written, hp, hc]; exact h.result_written

theorem step (a : Action) : (s.step a).Ok := by
  cases a with
  | take data journal sent => exact h.take data journal sent
  | retry sent => exact h.retry sent
  | start => exact h.start
  | commit => exact h.commit
  | fail => exact h.fail
  | finish => exact h.finish
  | settle => exact h.settle
  | rotate => exact h.rotate
  | drain => exact ⟨h.1, h.2, h.3, h.4, h.5, h.6⟩

end

end Ok

/-! ### What a rotate seals -/

theorem downClosed_init : init.DownClosed := by simp [DownClosed, init]

/-- A step that seals nothing keeps what is sealed downwards closed: a promote taken now is of an
epoch after everything on disk. -/
theorem DownClosed.of_sealedGens {t : Sealing} (hd : s.DownClosed) (h : s.Ok)
    (hg : t.sealedGens = s.sealedGens) (ht : ∀ job ∈ t.taken, job ∈ s.taken ∨ s.next ≤ job.epoch) :
    t.DownClosed := by
  have hsealed : t.sealedSegments = s.sealedSegments := congrArg List.flatten hg
  intro seg hseg job hjob hlt f hf
  rw [hsealed] at hseg ⊢
  rcases ht job hjob with hold | hnew
  · exact hd seg hseg job hold hlt f hf
  · have := h.committed_lt seg (mem_committed.mpr (.inl hseg))
    omega

/-- What a rotate that seals leaves sealed is everything committed. -/
theorem sealedSegments_rotate (hu : s.upload = []) :
    s.rotateOpenGeneration.sealedSegments = s.committed := by
  unfold rotateOpenGeneration
  by_cases ho : s.openGen = []
  · simp [ho, committed]
  · simp [hu, ho, committed, sealedSegments]

theorem taken_rotate (s : Sealing) : s.rotateOpenGeneration.taken = s.taken := by
  unfold rotateOpenGeneration
  split_ifs <;> rfl

/-- **One rotate.** Sealing the open generation keeps the sealed ones downwards closed exactly
when no outstanding promote has a file to write of an epoch before one of the open segments. -/
theorem downClosed_rotate_iff (h : s.Ok) (hd : s.DownClosed) (hu : s.upload = []) :
    s.rotateOpenGeneration.DownClosed ↔ s.SealsInOrder := by
  have hs := sealedSegments_rotate hu
  have ht := taken_rotate s
  constructor
  · intro hdr job hjob f hf hmissing seg hseg
    by_contra hlt
    refine hmissing (hs ▸ hdr seg ?_ job ?_ (Nat.lt_of_not_le hlt) f hf)
    · exact hs ▸ mem_committed.mpr (.inr hseg)
    · exact ht ▸ h.outstanding_taken job hjob
  · intro hord seg hseg job hjob hlt f hf
    rw [hs] at hseg ⊢
    rw [ht] at hjob
    by_contra hmissing
    rcases mem_committed.mp hseg with hold | hopen
    · exact hmissing (mem_committed.mpr (.inl (hd seg hold job hjob hlt f hf)))
    · rcases h.outstanding_or_written job hjob with hout | hw
      · exact absurd hlt (Nat.not_lt.mpr (hord job hout f hf hmissing seg hopen))
      · exact hmissing (hw f hf)

/-- Only a rotate seals. -/
theorem sealedGens_step (s : Sealing) {a : Action} (ha : a ≠ .rotate) :
    (s.step a).sealedGens = s.sealedGens := by
  cases a with
  | rotate => exact absurd rfl ha
  | start | finish => simp only [step]; split_ifs <;> rfl
  | commit => simp only [step]; split <;> rfl
  | take | retry | fail | settle | drain => rfl

/-- Only a take adds a promote, one of the current epoch. -/
theorem taken_step (s : Sealing) (a : Action) {job : EpochJob} (hjob : job ∈ (s.step a).taken) :
    job ∈ s.taken ∨ s.next ≤ job.epoch := by
  cases a with
  | take data journal sent =>
    rcases mem_append.mp hjob with hjob | hjob
    · exact .inl hjob
    · exact .inr (Nat.le_of_eq (congrArg EpochJob.epoch (mem_singleton.mp hjob)).symm)
  | start | finish => simp only [step] at hjob; split_ifs at hjob <;> exact .inl hjob
  | commit => simp only [step] at hjob; split at hjob <;> exact .inl hjob
  | rotate => exact .inl (taken_rotate s ▸ hjob)
  | retry | fail | settle | drain => exact .inl hjob

theorem downClosed_step_iff (h : s.Ok) (hd : s.DownClosed) (a : Action) :
    (s.step a).DownClosed ↔ s.SealsInOrderAt a := by
  by_cases ha : a = .rotate
  · subst ha
    by_cases hu : s.upload = []
    · simpa [SealsInOrderAt, step, hu] using downClosed_rotate_iff h hd hu
    · have hsame : s.step .rotate = s := by simp [step, rotateOpenGeneration, hu]
      rw [hsame]
      exact iff_of_true hd fun _ hu' => absurd hu' hu
  · refine iff_of_true (hd.of_sealedGens h (sealedGens_step s ha) fun job => ?_)
      fun ha' => absurd ha' ha
    exact taken_step s a

/-- **Generations are sealed in write order exactly when every rotate finds the earlier epochs
written.** From an empty actor, along any run of takes, retries, worker steps, rotates and drains,
the sealed generations are downwards closed in every state exactly when at each rotate that can
seal no promote, in flight or stashed, has a file to write of an epoch before one in
`pending/open`. -/
theorem downClosed_iff_sealsInOrder (as : List Action) :
    Run.Always step DownClosed init as ↔ Run.Each step SealsInOrderAt init as := by
  refine Run.always_iff_each (fun s a h _ => h.step a) (fun s a h _ hd => ?_) ok_init
    downClosed_init (Run.each_of_forall (fun _ _ => trivial) init as)
  exact downClosed_step_iff h hd a

instance (s : Sealing) : Decidable s.DownClosed :=
  inferInstanceAs (Decidable (∀ seg ∈ s.sealedSegments, ∀ job ∈ s.taken, job.epoch < seg.1 →
    ∀ f ∈ job.files, (job.epoch, f) ∈ s.sealedSegments))

/-- The promote of epoch 0 fails, is retried by the trigger that takes epoch 1, and fails again.
The promote of epoch 1 was behind it in the channel and commits. -/
def overtakingRun : List Action :=
  [.take true false true, .start, .fail, .settle, .retry true, .take true false true, .start,
    .fail, .settle, .start, .commit, .finish, .settle, .rotate]

/-- The rotate seals epoch 1 while the promote of epoch 0 waits in the stash. -/
theorem seals_second_epoch_first : (overtakingRun.foldl step init).sealedGens = [[(1, .data)]] ∧
      (overtakingRun.foldl step init).pipeline.failedPromotes = [⟨0, true, false⟩] ∧
      ¬ Run.Always step DownClosed init overtakingRun := by
  refine ⟨by decide, by decide, fun h => ?_⟩
  exact absurd h.last (by decide)

/-! ### Runs without failures -/

/-- Every dispatch reaches the worker and no promote fails. -/
def Action.Succeeds : Action → Prop
  | .take _ _ sent => sent = true
  | .fail => False
  | _ => True

/-- The epochs of the segments on disk, then those of the promotes the worker has not finished. -/
def track (s : Sealing) : List ℕ :=
  s.committed.map Prod.fst ++ (s.pipeline.running.toList ++ s.pipeline.queue).map EpochJob.epoch

/-- While nothing fails the stash stays empty and the epochs are committed in order. -/
structure InOrder (s : Sealing) : Prop where
  no_failed : s.pipeline.failedPromotes = []
  succeeded : ∀ job r, (job, r) ∈ s.pipeline.results → r = some ()
  lt_next : ∀ e ∈ s.track, e < s.next
  sorted : s.track.Pairwise (· ≤ ·)

namespace InOrder

variable {s : Sealing}

theorem sealsInOrder (hi : s.InOrder) (h : s.Ok) : s.SealsInOrder := by
  intro job hjob f hf hmissing seg hseg
  refine (pairwise_append.mp hi.sorted).2.2 _ (mem_map_of_mem (mem_committed.mpr (.inr hseg))) _
    (mem_map_of_mem ?_)
  rcases mem_outstanding.mp hjob with hflight | hstash
  · rcases mem_inFlight.mp hflight with hq | hrun | ⟨r, hres⟩
    · exact mem_append_right _ hq
    · exact mem_append_left _ (mem_toList.mpr hrun)
    · obtain rfl := hi.succeeded job r hres
      exact absurd (h.result_written job hres f hf) hmissing
  · rw [hi.no_failed] at hstash
    cases hstash

theorem take (hi : s.InOrder) (data journal : Bool) :
    (s.step (.take data journal true)).InOrder := by
  have htrack : (s.step (.take data journal true)).track = s.track ++ [s.next] := by
    simp [track, Sealing.step, sendPromoteJob, committed, sealedSegments]
  refine ⟨hi.no_failed, hi.succeeded, ?_, ?_⟩
  · rw [htrack]
    exact forall_mem_append.mpr ⟨fun e he => lt_succ_of_lt (hi.lt_next e he),
      forall_mem_singleton.mpr (lt_succ_self s.next)⟩
  · rw [htrack, pairwise_append]
    refine ⟨hi.sorted, pairwise_singleton _ _, fun e he e' he' => ?_⟩
    rw [mem_singleton.mp he']
    exact Nat.le_of_lt (hi.lt_next e he)

theorem commit (hi : s.InOrder) : (s.step .commit).InOrder := by
  simp only [Sealing.step]
  match hn : s.nextFile with
  | none => exact hi
  | some seg =>
    obtain ⟨job, hrun, f, -, rfl⟩ := nextFile_eq_some hn
    -- the running promote is the first of the unfinished ones
    have htrack : s.track = s.committed.map Prod.fst ++ job.epoch :: s.pipeline.queue.map
        EpochJob.epoch := by simp [track, hrun]
    have hnext :
        track { s with openGen := s.openGen ++ [(job.epoch, f)], written := s.written + 1 } =
        s.committed.map Prod.fst ++ job.epoch :: job.epoch :: s.pipeline.queue.map
          EpochJob.epoch := by simp [track, committed, sealedSegments, hrun]
    have hlt := hi.lt_next
    have hsorted := hi.sorted
    rw [htrack] at hlt hsorted
    obtain ⟨hdisk, hrest, hle⟩ := pairwise_append.mp hsorted
    refine ⟨hi.no_failed, hi.succeeded, ?_, ?_⟩ <;> rw [hnext]
    · exact fun e he => hlt e (by simpa using he)
    · refine pairwise_append.mpr ⟨hdisk, pairwise_cons.mpr ⟨?_, hrest⟩, fun e he => ?_⟩
      · exact forall_mem_cons.mpr ⟨Nat.le_refl _, (pairwise_cons.mp hrest).1⟩
      · exact forall_mem_cons.mpr ⟨hle e he _ mem_cons_self, hle e he⟩

/-- A step that commits nothing new and takes no promote keeps the order. -/
theorem of_sublist {t : Sealing} (hi : s.InOrder) (hf : t.pipeline.failedPromotes = [])
    (hr : ∀ job r, (job, r) ∈ t.pipeline.results → r = some ()) (hn : t.next = s.next)
    (ht : t.track.Sublist s.track) : t.InOrder :=
  ⟨hf, hr, fun e he => hn ▸ hi.lt_next e (ht.mem he), hi.sorted.sublist ht⟩

theorem retry (hi : s.InOrder) (sent : Bool) : (s.step (.retry sent)).InOrder := by
  have hsame : s.step (.retry sent) = s := by
    simp [Sealing.step, retryFailedPromote, hi.no_failed]
  rwa [hsame]

theorem start (hi : s.InOrder) : (s.step .start).InOrder := by
  simp only [Sealing.step, Pipeline.start]
  split_ifs
  · exact hi
  · split
    case h_1 hrun hq =>
      exact hi.of_sublist hi.no_failed hi.succeeded rfl (by simp [track, committed, sealedSegments,
        hrun, hq])
    case h_2 => exact ⟨hi.no_failed, hi.succeeded, hi.lt_next, hi.sorted⟩

theorem finish (hi : s.InOrder) : (s.step .finish).InOrder := by
  simp only [Sealing.step, Pipeline.finish]
  split_ifs
  · split
    case h_1 => exact ⟨hi.no_failed, hi.succeeded, hi.lt_next, hi.sorted⟩
    case h_2 job hrun =>
      refine hi.of_sublist hi.no_failed (fun j r hres => ?_) rfl ?_
      · rcases mem_append.mp hres with hres | hres
        · exact hi.succeeded j r hres
        · exact (Prod.mk.inj (mem_singleton.mp hres)).2
      · simp [track, committed, sealedSegments, hrun]
  · exact hi

theorem settle (hi : s.InOrder) : (s.step .settle).InOrder := by
  simp only [Sealing.step, Pipeline.settle]
  split
  case h_1 => exact ⟨hi.no_failed, hi.succeeded, hi.lt_next, hi.sorted⟩
  case h_2 job r rest hres =>
    obtain rfl := hi.succeeded job r (by rw [hres]; exact mem_cons_self)
    exact hi.of_sublist hi.no_failed (fun j r hj => hi.succeeded j r (hres ▸ mem_cons_of_mem _ hj))
      rfl (Sublist.refl _)

theorem rotate (hi : s.InOrder) : (s.step .rotate).InOrder := by
  have hp : (s.step .rotate).pipeline = s.pipeline ∧ (s.step .rotate).next = s.next := by
    simp only [Sealing.step, rotateOpenGeneration]
    split_ifs <;> exact ⟨rfl, rfl⟩
  refine hi.of_sublist ?_ ?_ hp.2 ?_
  · rw [hp.1]; exact hi.no_failed
  · rw [hp.1]; exact hi.succeeded
  · rw [track, hp.1, show (s.step .rotate).committed = s.committed from committed_rotate s]
    exact Sublist.refl _

theorem step (hi : s.InOrder) {a : Action} (ha : a.Succeeds) : (s.step a).InOrder := by
  cases a with
  | take data journal sent =>
    obtain rfl : sent = true := ha
    exact hi.take data journal
  | retry sent => exact hi.retry sent
  | start => exact hi.start
  | commit => exact hi.commit
  | fail => exact ha.elim
  | finish => exact hi.finish
  | settle => exact hi.settle
  | rotate => exact hi.rotate
  | drain => exact ⟨hi.no_failed, hi.succeeded, hi.lt_next, hi.sorted⟩

end InOrder

theorem each_sealsInOrder {as : List Action} (has : ∀ a ∈ as, a.Succeeds) :
    Run.Each step SealsInOrderAt init as := by
  have hi : init.InOrder := by
    refine ⟨rfl, ?_, ?_, ?_⟩ <;> simp [init, empty, track, committed, sealedSegments]
  have hC : ∀ s, Run.Each step (fun _ a => a.Succeeds) s as := by
    induction as with
    | nil => exact fun _ => trivial
    | cons a as ih =>
      exact fun s => ⟨has a mem_cons_self, ih (fun b hb => has b (mem_cons_of_mem a hb)) _⟩
  exact Run.each_of_keeps (I := fun s => s.Ok ∧ s.InOrder)
    (fun _ a h ha => ⟨h.1.step a, h.2.step ha⟩) (fun _ _ h _ _ _ _ => h.2.sealsInOrder h.1)
    ⟨ok_init, hi⟩ (hC init) (hC init)

/-- **Without failures generations are sealed in write order.** Along a run in which every dispatch
reaches the worker and no promote fails, the sealed generations are downwards closed in every
state. -/
theorem downClosed_of_succeeds {as : List Action} (has : ∀ a ∈ as, a.Succeeds) :
    Run.Always step DownClosed init as :=
  Run.Always.mono (fun _ h => h.2) (Run.always_of_each (P := fun s => s.Ok ∧ s.DownClosed)
    (fun _ a h ha => ⟨h.1.step a, (downClosed_step_iff h.1 h.2 a).mpr ha⟩)
    ⟨ok_init, downClosed_init⟩ (each_sealsInOrder has))

/-- A rotate between the two epochs. -/
theorem downClosed_two_epochs : Run.Always step DownClosed init [.take true true true, .start,
    .commit, .take true false true, .commit, .finish, .start, .rotate, .commit, .settle] :=
  downClosed_of_succeeds (by simp [Action.Succeeds])

end Sealing

end Elide
