import Elide.Events.Journal
import Elide.ForceClaim.Plan
import Elide.Names.Record
import Elide.Volume.Recovery
import Mathlib.Logic.Function.Basic

/-!
# Resuming a forced claim

A forced claim takes its source from the record it puts its own over. If it crashes after that, the
record no longer names the source, and the run that resumes it takes the newest other fork in the
journal of the name. The journal is written after the record and without a guarantee: an emit may fail
or be cut off, the emit of an earlier binding may land late, and a forced emit overwrites whatever was
written since it read. So the journal's newest other fork need not be the one the record named.

Given the source, the rest of the resume is determined: the copied set is a function of the source's
objects, and finishing the provenance a second time changes nothing.

## Main results

* `NameHistory.faithful_iff`: in every state of a history, what is resumed takes over what the
  interrupted run would have taken over, exactly when each forced claim finds its source's event newest
  in the journal, and each write of the journal's HEAD that lands before it is finished is of an event
  of the source, or of its own event over a HEAD whose newest other event is of the source.
* `NameHistory.resumes_from_older_fork`: a claim whose emit was lost, and a forced claim of its fork
  that is resumed from the fork before.
-/

namespace Elide

open Function Option List VolumeEvent Except

/-- How many earlier forks a resume takes from the journal. -/
def JOURNAL_SOURCE_LIMIT : ℕ := 8

/-- Why the source of a resume was not found. -/
inductive ResolveError where
  | journal (e : EventError)
  /-- There is no prior binding in the journal to re-own from. -/
  | noPriorBinding
  deriving DecidableEq

namespace EventLog

variable (log : EventLog)

/-- The forks in the journal other than the one bound, the newest first. -/
def priorBindings (bound : Ulid) : Except EventError (List Ulid) :=
  (log.recentVia (JOURNAL_SOURCE_LIMIT * 2)).map fun events =>
    ((events.map volUlid).filter fun v => decide (v ≠ bound)).eraseDups.take
      JOURNAL_SOURCE_LIMIT

/-- The source of a resumed run. -/
def resolveSource (bound : Ulid) : Except ResolveError Ulid :=
  match log.priorBindings bound with
  | .error e => .error (.journal e)
  | .ok [] => .error .noPriorBinding
  | .ok (dead :: _) => .ok dead

end EventLog

/-! ### Histories of a name -/

/-- The verbs that change what a name is bound to, or act on what it is bound to. -/
inductive BindingOp where
  /-- With the name, volume and snapshot it is forked from, if it is. -/
  | create (volUlid : Ulid) (size : ℕ) (origin : Option (Text × Ulid × Ulid))
  | claim (newVolUlid : Ulid)
  | reclaim (localVolUlid : Ulid)
  | release (handoffSnapshot : Ulid)
  | forceClaim (newVolUlid : Ulid)
  | start
  | stop
  | recordLatestSnapshot (volUlid snapUlid : Ulid)

namespace BindingOp

/-- The record that is put. -/
def record? (caller : Caller) (op : BindingOp) (read : Option NameRecord) : Option NameRecord :=
  match op with
  | create volUlid size _ => (markInitial caller volUlid size read).record?
  | claim newVolUlid => (markClaimed caller newVolUlid .stopped read).record?
  | reclaim localVolUlid => (markReclaimedLocal caller localVolUlid .stopped read).record?
  | release handoffSnapshot => (markReleased caller.coordId handoffSnapshot read).record?
  | forceClaim newVolUlid =>
    forceClaimRecord caller newVolUlid
      (read.bind fun r => r.latestSnapshot.map fun snap => ⟨r.volUlid, snap⟩) read
  | start => (markLive caller read).record?
  | stop => (markStopped caller read).record?
  | .recordLatestSnapshot volUlid snapUlid =>
    (Elide.recordLatestSnapshot volUlid snapUlid read).record?

/-- The fork that is made. -/
def newFork? : BindingOp → Option Ulid
  | create volUlid _ _ => some volUlid
  | claim newVolUlid | forceClaim newVolUlid => some newVolUlid
  | _ => none

/-- The event that is emitted afterwards. -/
def event? (op : BindingOp) (read : Option NameRecord) (put : NameRecord) : Option EventKind :=
  match op with
  | create _ _ none => some .created
  | create _ _ (some (name, vol, snap)) => some (.forkedFrom name vol snap)
  | claim _ | reclaim _ => some .claimed
  | release handoffSnapshot => some (.released handoffSnapshot)
  | forceClaim _ => some (.forceClaimed ((read.map NameRecord.volUlid).getD put.volUlid)
      (read.bind NameRecord.coordinatorId))
  | start | stop | .recordLatestSnapshot _ _ => none

end BindingOp

/-- A verb binds the fork it makes, or keeps the one that is bound. -/
theorem BindingOp.volUlid_record? {caller : Caller} {op : BindingOp} {read : Option NameRecord}
    {put : NameRecord} (h : op.record? caller read = some put) :
    op.newFork? = some put.volUlid ∨
      op.newFork? = none ∧ ∃ r, read = some r ∧ put.volUlid = r.volUlid := by
  cases op with
  | create volUlid size origin => exact .inl (congrArg some (volUlid_markInitial h).symm)
  | claim newVolUlid => exact .inl (congrArg some (volUlid_markClaimed h).symm)
  | forceClaim newVolUlid => exact .inl (congrArg some (volUlid_forceClaimRecord h).symm)
  | reclaim localVolUlid => exact .inr ⟨rfl, volUlid_markReclaimedLocal h⟩
  | release handoffSnapshot => exact .inr ⟨rfl, volUlid_markReleased h⟩
  | start => exact .inr ⟨rfl, volUlid_markLive h⟩
  | stop => exact .inr ⟨rfl, volUlid_markStopped h⟩
  | recordLatestSnapshot volUlid snapUlid => exact .inr ⟨rfl, volUlid_recordLatestSnapshot h⟩

/-- How far an emit has come. -/
inductive Emit where
  | idle
  | reading (caller : Caller) (kind : EventKind) (volUlid : Ulid)
  | writing (event : VolumeEvent) (read : Option (List VolumeEvent)) (version : ℕ)
  | appending (event : VolumeEvent)

/-- A forced claim after its rebind: what it was made from, and the provenance on its disk. -/
structure ForcedClaim where
  source : Ulid
  /-- The snapshot the record gave. -/
  hint : Option Ulid
  lineage : ProvenanceLineage

/-- What a forced claim ends with. -/
structure TakeOver where
  source : Ulid
  lineage : ProvenanceLineage
  reowned : Finset Ulid

/-- A name, its journal, and the forced claims of it. -/
structure NameHistory where
  record : Option NameRecord
  /-- The events of HEAD, the newest first. -/
  head : Option (List VolumeEvent)
  headVersion : ℕ
  archive : Ulid → Option VolumeEvent
  emits : ℕ → Emit
  /-- The forced claims that are not finished, by fork. -/
  unfinished : Ulid → Option ForcedClaim
  /-- What the finished ones were and took over. -/
  finished : Ulid → Option (ForcedClaim × TakeOver)

namespace NameHistory

/-- What stays the same along a history. -/
structure Bucket where
  name : Text
  /-- The objects of the forks that are taken over. -/
  objects : Ulid → ForkObjects

/-- What happens to one name. -/
inductive Action where
  /-- A verb: the conditional PUT, after which its event is to be emitted. -/
  | bind (i : ℕ) (caller : Caller) (op : BindingOp)
  | readHead (i : ℕ) (fresh : Ulid) (signature : Text)
  | writeHead (i : ℕ)
  | appendRecord (i : ℕ)
  /-- An emit fails or is cut off. -/
  | drop (i : ℕ)
  /-- The run that made a fork writes its provenance, and finishes or crashes. -/
  | proceed (fork : Ulid) (finish : Bool)
  /-- The forced claim of the fork the name is bound to is resumed, writes the provenance, and finishes
  or crashes. -/
  | resume (finish : Bool)

variable (s : NameHistory)

/-- The journal as a reader finds it. -/
def log : EventLog where
  head := .ok (s.head.map (List.map HeadEvent.parsed))
  record u := match s.archive u with
    | some e => .value (.parsed e)
    | none => .missing
  fetchCoordinatorPub _ := .error []

/-- A new fork has a new ULID. -/
def admits (op : BindingOp) : Bool :=
  match op.newFork? with
  | some fork => (s.unfinished fork).isNone && (s.finished fork).isNone &&
      s.record.all fun r => decide (r.volUlid ≠ fork)
  | none => true

/-- `[new] ++ events`, cut to the window. -/
def pushed (event : VolumeEvent) (read : Option (List VolumeEvent)) : List VolumeEvent :=
  event :: (read.getD []).take (HEAD_WINDOW - 1)

/-- The write of HEAD by an emit goes through. A forced one is not conditional. -/
def lands (event : VolumeEvent) (version : ℕ) : Bool :=
  decide (event.kind.tag = .forceClaimed) || decide (version = s.headVersion)

section

variable (b : Bucket)

/-- What a claim takes over from a source, with this provenance on disk. -/
def Bucket.takeOver (source : Ulid) (lineage : ProvenanceLineage) : TakeOver where
  source := source
  lineage := (b.objects source).finalLineage source lineage
  reowned := (b.objects source).headDelta

/-- What the run that made the fork takes over if it is not interrupted. -/
def Bucket.uninterrupted (c : ForcedClaim) : TakeOver :=
  b.takeOver c.source ((b.objects c.source).provisional c.source c.hint)

variable (s : NameHistory)

/-- What a run takes over that resumes now. -/
def resumed (fork : Ulid) (c : ForcedClaim) : Except ResolveError TakeOver :=
  (s.log.resolveSource fork).map fun source => b.takeOver source c.lineage

/-- A forced claim's fork, if the verb makes one. -/
def forced? (op : BindingOp) (r : NameRecord) : Option (Ulid × ForcedClaim) :=
  match op with
  | .forceClaim newVolUlid => some (newVolUlid,
      { source := r.volUlid
        hint := r.latestSnapshot
        lineage := (b.objects r.volUlid).provisional r.volUlid r.latestSnapshot })
  | _ => none

/-- A verb binds the name, if it may. -/
def bind (i : ℕ) (caller : Caller) (op : BindingOp) : NameHistory :=
  if s.admits op then
    match op.record? caller s.record with
    | none => s
    | some put =>
      { s with
        record := some put
        emits := update s.emits i <|
          (op.event? s.record put).elim .idle fun kind => .reading caller kind put.volUlid
        unfinished := match s.record.bind (forced? b op) with
          | some (fork, c) => update s.unfinished fork (some c)
          | none => s.unfinished }
  else s

/-- The emit reads HEAD and fixes the event it will write. -/
def readHead (i : ℕ) (fresh : Ulid) (signature : Text) : NameHistory :=
  match s.emits i with
  | .reading caller kind volUlid =>
    let prev := (s.head.bind List.head?).map eventUlid
    let eventUlid := prev.elim fresh fun p => ((UlidMint.mk p 0).next fun _ => fresh).1
    match new eventUlid b.name caller.coordId caller.hostname volUlid prev kind with
    | some event =>
      { s with
        emits := update s.emits i
          (.writing { event with signature := some signature } s.head s.headVersion) }
    | none => { s with emits := update s.emits i .idle }
  | _ => s

/-- The emit writes HEAD, if nobody did since. -/
def writeHead (i : ℕ) : NameHistory :=
  match s.emits i with
  | .writing event read version =>
    if s.lands event version then
      { s with
        head := some (pushed event read)
        headVersion := s.headVersion + 1
        emits := update s.emits i (.appending event) }
    else { s with emits := update s.emits i .idle }
  | _ => s

/-- The emit archives its event. -/
def appendRecord (i : ℕ) : NameHistory :=
  match s.emits i with
  | .appending event =>
    { s with
      archive := update s.archive event.eventUlid
        ((s.archive event.eventUlid).or (some event))
      emits := update s.emits i .idle }
  | _ => s

/-- A forced claim has written the provenance of `t`. -/
def settle (fork : Ulid) (c : ForcedClaim) (t : TakeOver) (finish : Bool) : NameHistory :=
  if finish then
    { s with
      unfinished := update s.unfinished fork none
      finished := update s.finished fork (some (c, t)) }
  else
    { s with
      unfinished := update s.unfinished fork (some { c with lineage := t.lineage }) }

/-- The run that made the fork goes on. -/
def proceed (fork : Ulid) (finish : Bool) : NameHistory :=
  match s.unfinished fork with
  | some c => s.settle fork c (b.takeOver c.source c.lineage) finish
  | none => s

/-- Another run takes the unfinished claim over. -/
def resume (finish : Bool) : NameHistory :=
  match s.record with
  | none => s
  | some r =>
    match s.unfinished r.volUlid with
    | none => s
    | some c =>
      match s.resumed b r.volUlid c with
      | .ok t => s.settle r.volUlid c t finish
      | .error _ => s

/-- One action. -/
def step : Action → NameHistory
  | .bind i caller op => s.bind b i caller op
  | .readHead i fresh signature => s.readHead b i fresh signature
  | .writeHead i => s.writeHead i
  | .appendRecord i => s.appendRecord i
  | .drop i => { s with emits := update s.emits i .idle }
  | .proceed fork finish => s.proceed b fork finish
  | .resume finish => s.resume b finish

end

/-- Before the name is created. -/
def start : NameHistory where
  record := none
  head := none
  headVersion := 0
  archive _ := none
  emits _ := .idle
  unfinished _ := none
  finished _ := none

/-! ### What is claimed -/

/-- A run that resumes takes over, and what is finished has taken over, what the interrupted run would
have. -/
structure Faithful (b : Bucket) (s : NameHistory) : Prop where
  resumed : ∀ r c, s.record = some r → s.unfinished r.volUlid = some c →
    s.resumed b r.volUlid c = .ok (b.uninterrupted c)
  finished : ∀ fork c t, s.finished fork = some (c, t) → t = b.uninterrupted c

/-- The newest event of another fork than `fork` is of `source`. -/
def NewestOther (events : List VolumeEvent) (fork source : Ulid) : Prop :=
  (events.map volUlid).find? (fun v => decide (v ≠ fork)) = some source

instance (events : List VolumeEvent) (fork source : Ulid) :
    Decidable (NewestOther events fork source) :=
  inferInstanceAs (Decidable (_ = _))

variable (s : NameHistory)

/-- What a step must meet. -/
def KeepsSource : Action → Prop
  -- a forced claim finds an event of its source newest
  | .bind _ caller (.forceClaim fork) => ∀ r, s.record = some r → s.admits (.forceClaim fork) = true →
      ((BindingOp.forceClaim fork).record? caller s.record).isSome = true →
      NewestOther (s.head.getD []) fork r.volUlid
  -- what lands on HEAD before it is finished is of the source, or its own over the source's
  | .writeHead i => ∀ event read version, s.emits i = .writing event read version →
      s.lands event version = true → ∀ r c, s.record = some r → s.unfinished r.volUlid = some c →
      event.volUlid = c.source ∨ (event.volUlid = r.volUlid ∧
        NewestOther ((read.getD []).take (HEAD_WINDOW - 1)) r.volUlid c.source)
  | _ => True

/-! ### Reading the journal -/

theorem NewestOther.cons_iff {event : VolumeEvent} {events : List VolumeEvent} {fork source : Ulid}
    (hne : source ≠ fork) :
    NewestOther (event :: events) fork source ↔
      event.volUlid = source ∨ (event.volUlid = fork ∧ NewestOther events fork source) := by
  rw [NewestOther, map_cons]
  by_cases h : event.volUlid = fork
  · rw [find?_cons_of_neg (by simpa using h)]
    refine ⟨fun ho => .inr ⟨h, ho⟩, ?_⟩
    rintro (hs | ⟨-, ho⟩)
    · exact absurd (hs.symm.trans h) hne
    · exact ho
  · rw [find?_cons_of_pos (by simpa using h), some.injEq]
    exact ⟨.inl, fun ho => ho.resolve_right fun ho => h ho.1⟩

/-- HEAD has no more events than the window. -/
def Windowed : Prop := ∀ events, s.head = some events → events.length ≤ HEAD_WINDOW

/-- So many events as a resume reads are what is in HEAD. -/
theorem recentVia_log {s : NameHistory} (h : s.Windowed) :
    s.log.recentVia (JOURNAL_SOURCE_LIMIT * 2) = .ok (s.head.getD []) := by
  rw [EventLog.recentVia, if_neg (by decide)]
  cases hhead : s.head with
  | none => simp [log, hhead]
  | some events =>
    have hparsed : (events.map HeadEvent.parsed).filterMap HeadEvent.intoVolumeEvent = events := by
      rw [filterMap_map]
      exact filterMap_some
    have hlen : events.length ≤ JOURNAL_SOURCE_LIMIT * 2 := h events hhead
    simp only [log, hhead, map_some, getD_some, hparsed, length_map]
    by_cases hfull : JOURNAL_SOURCE_LIMIT * 2 ≤ events.length
    · rw [if_pos hfull]
      exact congrArg ok (take_of_length_le hlen)
    · have hshort : events.length < HEAD_WINDOW := Nat.lt_of_not_le hfull
      rw [if_neg hfull, if_pos hshort]

theorem resolveSource_log_iff {s : NameHistory} (h : s.Windowed) {fork source : Ulid} :
    s.log.resolveSource fork = .ok source ↔ NewestOther (s.head.getD []) fork source := by
  rw [EventLog.resolveSource, EventLog.priorBindings, recentVia_log h, NewestOther,
    ← head?_filter, Except.map]
  generalize ((s.head.getD []).map volUlid).filter (fun v => decide (v ≠ fork)) = others
  cases others with
  | nil => simp
  | cons v vs => simp [eraseDups_cons, JOURNAL_SOURCE_LIMIT]

/-! ### The resume in terms of the journal -/

/-- What is on disk leads to what the interrupted run would have taken over. -/
def OnCourse (b : Bucket) (s : NameHistory) : Prop :=
  ∀ fork c, s.unfinished fork = some c → b.takeOver c.source c.lineage = b.uninterrupted c

/-- A forced claim's fork is not its own source. -/
def Apart : Prop := ∀ fork c, s.unfinished fork = some c → c.source ≠ fork

/-- The newest other event in HEAD is of the source, and what is finished is right. -/
structure Points (b : Bucket) (s : NameHistory) : Prop where
  newest : ∀ r c, s.record = some r → s.unfinished r.volUlid = some c →
    NewestOther (s.head.getD []) r.volUlid c.source
  finished : ∀ fork c t, s.finished fork = some (c, t) → t = b.uninterrupted c

variable {b : Bucket} {s : NameHistory}

theorem faithful_iff_points (hwin : s.Windowed) (hcourse : s.OnCourse b) :
    s.Faithful b ↔ s.Points b := by
  constructor
  · intro h
    refine ⟨fun r c hr hc => ?_, h.finished⟩
    have hres := h.resumed r c hr hc
    rw [resumed] at hres
    obtain ⟨source, hsource, hres⟩ := Run.exists_of_bind_ok hres
    have hsame : source = c.source := congrArg TakeOver.source (ok.inj hres)
    rw [← resolveSource_log_iff hwin, hsource, hsame]
  · intro h
    refine ⟨fun r c hr hc => ?_, h.finished⟩
    rw [resumed, (resolveSource_log_iff hwin).mpr (h.newest r c hr hc)]
    exact congrArg ok (hcourse r.volUlid c hc)

/-! ### Steps -/

theorem takeOver_takeOver (source : Ulid) (lineage : ProvenanceLineage) :
    b.takeOver source (b.takeOver source lineage).lineage = b.takeOver source lineage := by
  simp [Bucket.takeOver, ForkObjects.finalLineage_finalLineage]

section Settle

variable {fork : Ulid} {c : ForcedClaim} {t : TakeOver} {finish : Bool}

theorem settle_frame : (s.settle fork c t finish).record = s.record ∧
    (s.settle fork c t finish).head = s.head := by
  cases finish <;> exact ⟨rfl, rfl⟩

/-- What is unfinished after a claim wrote its provenance was before, or is this claim. -/
theorem unfinished_settle {f : Ulid} {c' : ForcedClaim}
    (h : (s.settle fork c t finish).unfinished f = some c') :
    s.unfinished f = some c' ∨ f = fork ∧ c' = { c with lineage := t.lineage } := by
  rw [NameHistory.settle] at h
  by_cases hf : f = fork
  · subst hf
    split_ifs at h
    · simp at h
    · exact .inr ⟨rfl, by simpa using h.symm⟩
  · left
    split_ifs at h
    all_goals simpa [update_of_ne hf] using h

theorem Points.settle (h : s.Points b) (hc : s.unfinished fork = some c)
    (ht : t = b.uninterrupted c) : (s.settle fork c t finish).Points b := by
  refine ⟨fun r c' hr hc' => ?_, fun f c' t' hf => ?_⟩
  · rw [settle_frame.1] at hr
    rw [settle_frame.2]
    rcases unfinished_settle hc' with hc' | ⟨rfl, rfl⟩
    · exact h.newest r c' hr hc'
    · exact h.newest r c hr hc
  · rw [NameHistory.settle] at hf
    split_ifs at hf
    · by_cases hfork : f = fork
      · simp only [hfork, update_self, some.injEq, Prod.mk.injEq] at hf
        rw [← hf.1, ← hf.2, ht]
      · simp only [update_of_ne hfork] at hf
        exact h.finished f c' t' hf
    · exact h.finished f c' t' hf

end Settle

section Bind

variable {i : ℕ} {caller : Caller} {op : BindingOp}

/-- The fork a verb binds has no forced claim yet, or was bound before. -/
theorem unfinished_of_bind {put : NameRecord} (hadmits : s.admits op = true)
    (hput : op.record? caller s.record = some put) :
    s.unfinished put.volUlid = none ∨ ∃ r, s.record = some r ∧ put.volUlid = r.volUlid := by
  refine (BindingOp.volUlid_record? hput).imp (fun hnew => ?_) And.right
  simp only [admits, hnew, Bool.and_eq_true, isNone_iff_eq_none] at hadmits
  exact hadmits.1.1

theorem bind_cases (s : NameHistory) (i : ℕ) (caller : Caller) (op : BindingOp) :
    s.bind b i caller op = s ∧ ¬ (s.admits op = true ∧ (op.record? caller s.record).isSome = true) ∨
      ∃ put emits, s.admits op = true ∧ op.record? caller s.record = some put ∧
        s.bind b i caller op =
          { s with
            record := some put
            emits := emits
            unfinished := match s.record.bind (forced? b op) with
              | some (fork, c) => update s.unfinished fork (some c)
              | none => s.unfinished } := by
  rw [bind]
  split_ifs with hadmits
  · cases hput : op.record? caller s.record with
    | none => exact .inl ⟨rfl, by simp⟩
    | some put => exact .inr ⟨put, _, hadmits, rfl, rfl⟩
  · exact .inl ⟨rfl, fun h => hadmits h.1⟩

/-- A forced claim is over a record, and its fork is not the one bound. -/
theorem exists_of_forceClaim {fork : Ulid} {put : NameRecord}
    (hadmits : s.admits (.forceClaim fork) = true)
    (hput : (BindingOp.forceClaim fork).record? caller s.record = some put) :
    ∃ r, s.record = some r ∧ r.volUlid ≠ fork ∧ put.volUlid = fork := by
  have hvol := volUlid_forceClaimRecord hput
  cases hr : s.record with
  | none =>
    rw [hr] at hput
    cases hput
  | some r =>
    simp only [admits, BindingOp.newFork?, hr, all_some, Bool.and_eq_true, decide_eq_true_eq] at hadmits
    exact ⟨r, rfl, hadmits.2, hvol⟩

/-- What is unfinished after a verb was before, or is the forced claim it makes. -/
theorem unfinished_bind {fork : Ulid} {c : ForcedClaim}
    (h : (s.bind b i caller op).unfinished fork = some c) :
    s.unfinished fork = some c ∨ ∃ r, op = .forceClaim fork ∧ s.record = some r ∧
      r.volUlid ≠ fork ∧ c = ⟨r.volUlid, r.latestSnapshot,
        (b.objects r.volUlid).provisional r.volUlid r.latestSnapshot⟩ := by
  rcases s.bind_cases (b := b) i caller op with ⟨heq, -⟩ | ⟨put, emits, hadmits, hput, heq⟩
  · rw [heq] at h
    exact .inl h
  · rw [heq] at h
    cases op with
    | forceClaim new =>
      obtain ⟨r, hr, hne, -⟩ := exists_of_forceClaim hadmits hput
      simp only [hr, bind_some, forced?] at h
      by_cases hf : fork = new
      · subst hf
        rw [update_self] at h
        exact .inr ⟨r, rfl, hr, hne, (some.inj h).symm⟩
      · rw [update_of_ne hf] at h
        exact .inl h
    | _ =>
      cases hr : s.record <;> simpa [hr, forced?] using h

/-- A verb keeps the journal pointing to the source exactly if a forced claim finds it do so. -/
theorem points_bind_iff (h : s.Points b) :
    (s.bind b i caller op).Points b ↔ s.KeepsSource (.bind i caller op) := by
  rcases s.bind_cases (b := b) i caller op with ⟨heq, hno⟩ | ⟨put, emits, hadmits, hput, heq⟩
  · rw [heq]
    refine iff_of_true h ?_
    cases op with
    | forceClaim fork => exact fun r _ ha hs => absurd ⟨ha, hs⟩ hno
    | _ => trivial
  · have hbound := unfinished_of_bind hadmits hput
    cases op with
    | forceClaim fork =>
      obtain ⟨r, hr, hne, hvol⟩ := exists_of_forceClaim hadmits hput
      have hc : (s.bind b i caller (.forceClaim fork)).unfinished fork =
          some ⟨r.volUlid, r.latestSnapshot,
            (b.objects r.volUlid).provisional r.volUlid r.latestSnapshot⟩ := by
        rw [heq]
        simp [hr, forced?]
      have hrecord : (s.bind b i caller (.forceClaim fork)).record = some put := by rw [heq]
      have hhead : (s.bind b i caller (.forceClaim fork)).head = s.head := by rw [heq]
      have hfinished : (s.bind b i caller (.forceClaim fork)).finished = s.finished := by rw [heq]
      constructor
      · intro hafter r' hr' _ _
        obtain rfl := mem_unique hr hr'
        have hnewest := hafter.newest put _ hrecord (by rw [hvol, hc])
        rwa [hvol, hhead] at hnewest
      · intro hkeeps
        have hnewest := hkeeps r hr hadmits (by rw [hput]; rfl)
        refine ⟨fun r' c' hr' hc' => ?_, by rw [hfinished]; exact h.finished⟩
        obtain rfl := mem_unique hrecord hr'
        rw [hvol] at hc' ⊢
        rw [← mem_unique hc hc', hhead]
        exact hnewest
    | _ =>
      refine iff_of_true ⟨fun r c hr hc => ?_, by rw [heq]; exact h.finished⟩ trivial
      rw [heq] at hr
      obtain rfl := some.inj hr
      rcases unfinished_bind hc with hc | ⟨_, ⟨⟩, -⟩
      rw [heq]
      rcases hbound with hnone | ⟨r, hr, hvol⟩
      · rw [hnone] at hc
        cases hc
      · rw [hvol] at hc ⊢
        exact h.newest r c hr hc

end Bind

/-! ### Histories -/

/-- Nothing but the emits and the archive differs. -/
structure Same (s t : NameHistory) : Prop where
  record : t.record = s.record
  head : t.head = s.head
  unfinished : t.unfinished = s.unfinished
  finished : t.finished = s.finished

theorem Same.refl (s : NameHistory) : s.Same s := ⟨rfl, rfl, rfl, rfl⟩

/-- What a step can do. -/
theorem step_cases (b : Bucket) (s : NameHistory) (a : Action) :
    (∃ i caller op, a = .bind i caller op) ∨
    (s.Same (s.step b a) ∧ s.KeepsSource a) ∨
    (∃ i event read version emits, a = .writeHead i ∧ s.emits i = .writing event read version ∧
      s.lands event version = true ∧
      s.step b a = { s with
        head := some (pushed event read)
        headVersion := s.headVersion + 1
        emits := emits }) ∨
    (∃ fork c t finish, s.unfinished fork = some c ∧
      (s.OnCourse b → s.Faithful b → t = b.uninterrupted c) ∧
      s.step b a = s.settle fork c t finish ∧ s.KeepsSource a) := by
  cases a with
  | bind i caller op => exact .inl ⟨i, caller, op, rfl⟩
  | readHead i fresh signature =>
    refine .inr (.inl ⟨?_, trivial⟩)
    simp only [step, readHead]
    split
    · split <;> exact ⟨rfl, rfl, rfl, rfl⟩
    · exact .refl s
  | writeHead i =>
    right
    cases hemit : s.emits i with
    | writing event read version =>
      by_cases hlands : s.lands event version = true
      · refine .inr (.inl ⟨i, event, read, version, update s.emits i (.appending event),
          rfl, hemit, hlands, ?_⟩)
        simp [step, writeHead, hemit, if_pos hlands]
      · refine .inl ⟨?_, fun e r v he hl => ?_⟩
        · simp only [step, writeHead, hemit, if_neg hlands]
          exact ⟨rfl, rfl, rfl, rfl⟩
        · rw [hemit] at he
          cases he
          exact absurd hl hlands
    | _ =>
      refine .inl ⟨?_, fun e r v he => ?_⟩
      · simp only [step, writeHead, hemit]
        exact .refl s
      · rw [hemit] at he
        cases he
  | appendRecord i =>
    refine .inr (.inl ⟨?_, trivial⟩)
    simp only [step, appendRecord]
    split
    · exact ⟨rfl, rfl, rfl, rfl⟩
    · exact .refl s
  | drop i => exact .inr (.inl ⟨⟨rfl, rfl, rfl, rfl⟩, trivial⟩)
  | proceed fork finish =>
    simp only [step, NameHistory.proceed]
    cases hc : s.unfinished fork with
    | none => exact .inr (.inl ⟨.refl s, trivial⟩)
    | some c =>
      exact .inr (.inr (.inr ⟨fork, c, _, finish, hc, fun h _ => h fork c hc, rfl, trivial⟩))
  | resume finish =>
    simp only [step, NameHistory.resume]
    cases hr : s.record with
    | none => exact .inr (.inl ⟨.refl s, trivial⟩)
    | some r =>
      dsimp only
      cases hc : s.unfinished r.volUlid with
      | none => exact .inr (.inl ⟨.refl s, trivial⟩)
      | some c =>
        dsimp only
        cases ht : s.resumed b r.volUlid c with
        | error e => exact .inr (.inl ⟨.refl s, trivial⟩)
        | ok t =>
          refine .inr (.inr (.inr ⟨r.volUlid, c, t, finish, hc, fun _ h => ?_, rfl, trivial⟩))
          exact ok.inj (ht.symm.trans (h.resumed r c hr hc))

theorem length_pushed_le (event : VolumeEvent) (read : Option (List VolumeEvent)) :
    (pushed event read).length ≤ HEAD_WINDOW := by
  have hpos : 0 < HEAD_WINDOW := by decide
  simp only [pushed, length_cons, length_take]
  omega

theorem Windowed.step (h : s.Windowed) (a : Action) : (s.step b a).Windowed := by
  rcases step_cases b s a with ⟨i, caller, op, rfl⟩ | ⟨hsame, -⟩ |
    ⟨i, event, read, version, emits, -, -, -, heq⟩ | ⟨fork, c, t, finish, -, -, heq, -⟩
  · rcases s.bind_cases (b := b) i caller op with ⟨heq, -⟩ | ⟨put, emits, -, -, heq⟩ <;>
      simp only [NameHistory.step, heq] <;> exact h
  · rw [Windowed, hsame.head]
    exact h
  · rw [heq]
    intro events hevents
    rw [← some.inj hevents]
    exact length_pushed_le event read
  · rw [heq, Windowed, settle_frame.2]
    exact h

/-- What is unfinished after a step was before, perhaps with another provenance, or is new. -/
theorem unfinished_step {a : Action} {fork : Ulid} {c : ForcedClaim}
    (h : (s.step b a).unfinished fork = some c) :
    s.unfinished fork = some c ∨
    (∃ c₀ t, s.unfinished fork = some c₀ ∧ (s.OnCourse b → s.Faithful b → t = b.uninterrupted c₀) ∧
      c = { c₀ with lineage := t.lineage }) ∨
    ∃ r : NameRecord, r.volUlid ≠ fork ∧ c = ⟨r.volUlid, r.latestSnapshot,
      (b.objects r.volUlid).provisional r.volUlid r.latestSnapshot⟩ := by
  rcases step_cases b s a with ⟨i, caller, op, rfl⟩ | ⟨hsame, -⟩ |
    ⟨i, event, read, version, emits, -, -, -, heq⟩ | ⟨f, c₀, t, finish, hc₀, ht, heq, -⟩
  · rcases unfinished_bind h with h | ⟨r, -, -, hne, rfl⟩
    · exact .inl h
    · exact .inr (.inr ⟨r, hne, rfl⟩)
  · exact .inl (hsame.unfinished ▸ h)
  · rw [heq] at h
    exact .inl h
  · rw [heq] at h
    rcases unfinished_settle h with h | ⟨rfl, rfl⟩
    · exact .inl h
    · exact .inr (.inl ⟨c₀, t, hc₀, ht, rfl⟩)

theorem Apart.step (h : s.Apart) (a : Action) : (s.step b a).Apart := by
  intro fork c hc
  rcases unfinished_step hc with hc | ⟨c₀, t, hc₀, -, rfl⟩ | ⟨r, hne, rfl⟩
  · exact h fork c hc
  · exact h fork c₀ hc₀
  · exact hne

theorem OnCourse.step (h : s.OnCourse b) (hfaithful : s.Faithful b) (a : Action) :
    (s.step b a).OnCourse b := by
  intro fork c hc
  rcases unfinished_step hc with hc | ⟨c₀, t, -, ht, rfl⟩ | ⟨r, -, rfl⟩
  · exact h fork c hc
  · rw [ht h hfaithful]
    exact takeOver_takeOver c₀.source _
  · rfl

/-- One step. What decides is what lands on HEAD, and what a forced claim finds there. -/
theorem points_step_iff (hapart : s.Apart) (hcourse : s.OnCourse b) (hfaithful : s.Faithful b)
    (h : s.Points b) (a : Action) : (s.step b a).Points b ↔ s.KeepsSource a := by
  rcases step_cases b s a with ⟨i, caller, op, rfl⟩ | ⟨hsame, hkeeps⟩ |
    ⟨i, event, read, version, emits, rfl, hemit, hlands, heq⟩ |
    ⟨fork, c, t, finish, hc, ht, heq, hkeeps⟩
  · exact points_bind_iff h
  · refine iff_of_true ⟨?_, ?_⟩ hkeeps
    · rw [hsame.record, hsame.unfinished, hsame.head]
      exact h.newest
    · rw [hsame.finished]
      exact h.finished
  · rw [heq]
    constructor
    · intro hafter e r v he _ rec c hrec hc
      rw [hemit] at he
      cases he
      exact (NewestOther.cons_iff (hapart _ c hc)).mp (hafter.newest rec c hrec hc)
    · intro hkeeps
      exact ⟨fun rec c hrec hc => (NewestOther.cons_iff (hapart _ c hc)).mpr
        (hkeeps event read version hemit hlands rec c hrec hc), h.finished⟩
  · rw [heq]
    exact iff_of_true (h.settle hc (ht hcourse hfaithful)) hkeeps

/-- **A resume continues the interrupted run exactly as long as the journal names its source.** For any
objects of the forks, along every history of a name: in every state, the forced claim of the fork the
name is bound to would be resumed with the source, provenance and copied set of the uninterrupted run,
and each that is finished has these, if and only if each forced claim finds an event of its source
newest in HEAD, and each HEAD that lands before it is finished has an event of the source newest, or
its own over one whose newest other event is of the source. -/
theorem faithful_iff (b : Bucket) (as : List Action) :
    Run.Always (step b) (Faithful b) start as ↔ Run.Each (step b) KeepsSource start as := by
  have hwin : start.Windowed := by rintro events ⟨⟩
  have hapart : start.Apart := by rintro fork c ⟨⟩
  have hcourse : start.OnCourse b := by rintro fork c ⟨⟩
  have hfaithful : start.Faithful b := ⟨by rintro r c ⟨⟩, by rintro fork c t ⟨⟩⟩
  refine Run.always_iff_each_of_keeps (I := fun s => s.Windowed ∧ s.Apart) (Q := OnCourse b)
    (L := fun _ _ => True) (fun s a hI _ => ⟨hI.1.step a, hI.2.step a⟩) ?_
    (fun s a _ _ hP hQ _ => hQ.step hP a) ⟨hwin, hapart⟩ hfaithful hcourse
    (Run.each_of_forall (fun _ _ => trivial) _ _)
  intro s a hI _ hP hQ
  rw [faithful_iff_points (hI.1.step a) (hQ.step hP a)]
  exact points_step_iff hI.2 hQ hP ((faithful_iff_points hI.1 hQ).mp hP) a

namespace LostEmit

/-- A fork with these segments in its HEAD, and no snapshot. -/
def withHead (added : Finset Ulid) : ForkObjects where
  pubkey := Vector.replicate 32 0
  provenance := .root [] none
  latest := none
  manifests := .empty
  stopManifests := .empty
  head := some { SegmentHead.empty none with added := added }

/-- Fork 2 has a segment. -/
def bucket : Bucket where
  name := ['v']
  objects u := if u = 2 then withHead {20} else withHead ∅

/-- A coordinator named by a letter. -/
def caller (c : Char) : Caller := ⟨[c], none, []⟩

/-- Fork 1 is created and released. Fork 2 is made by a claim whose emit is lost. A forced claim makes
fork 3 over it, and crashes. -/
def actions : List Action :=
  [.bind 0 (caller 'a') (.create 1 4096 none), .readHead 0 5 [], .writeHead 0,
    .bind 0 (caller 'a') (.release 10), .readHead 0 6 [], .writeHead 0,
    .bind 1 (caller 'b') (.claim 2), .drop 1, .bind 2 (caller 'c') (.forceClaim 3)]

/-- The history up to the crash. -/
def crashed : NameHistory := actions.foldl (step bucket) start

end LostEmit

open LostEmit in
/-- **A forced claim is resumed from a fork it was not made from.** It was made from fork 2, with
segment 20 to copy. The journal has no event of fork 2, so the resume takes fork 1 and copies
nothing. -/
theorem resumes_from_older_fork : crashed.record.map NameRecord.volUlid = some 3 ∧
      ∃ c, crashed.unfinished 3 = some c ∧ (bucket.uninterrupted c).source = 2 ∧
        (bucket.uninterrupted c).reowned = {20} ∧
        (crashed.resumed bucket 3 c).map (fun t => (t.source, t.reowned)) = .ok (1, ∅) := by
  refine ⟨rfl, _, rfl, rfl, ?_, ?_⟩
  · decide
  · decide

end NameHistory

end Elide
