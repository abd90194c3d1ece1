import Elide.Lib.Run
import Elide.Names.Record

/-!
# The end of an import

An import runs under an `Importing` record of its name. When its worker has exited, the coordinator
flips the record to `Readonly` and then destroys the volume's key; the two are on different systems,
and the coordinator may die anywhere. At its start it removes the lock of a dead import and then the
record, if that is still `Importing`. It does not look at the key.

`ImportWorld.Kept` says of any state what has to hold if the import is to end well, and of a state
without an import that it has (`kept_iff_ends`). The gate that creates the record runs beside the
completion, and the store may apply a write and report an error.

A record that an import leaves behind is lost when the import ends, not when the record was left: a
coordinator that dies in between finds the lock at its next start. So the exact condition
(`ImportWorld.Careful`) looks at the record where the import ends, and `ImportWorld.Prompt` says what
keeps it from being left: a clear that is answered, and a gate that comes before the end.

## Main results

* `ImportWorld.kept_iff`: exactly the careful runs keep the promise in every state.
* `ImportWorld.careful_of_prompt`: prompt runs are careful.
* `ImportWorld.key_outlives_readonly`: a key beside a published record, and a record without an
  import.
-/

namespace Elide

/-- What becomes of a write to the store. -/
inductive StoreReply where
  | applied
  | failed
  /-- It is applied, and an error is reported. -/
  | unreported
  deriving DecidableEq

/-- An import: whose it is, and what completion records. -/
structure ImportJob where
  coordId : Text
  hostname : Option Text
  volUlid : Ulid
  now : Text
  size : ℕ
  latestSnapshot : Option Ulid

namespace ImportJob

variable (job : ImportJob) (record : Option NameRecord)

/-- The record is this import's `Importing` binding. -/
def Holds : Prop := ∃ r ∈ record, r.state = .importing ∧ r.volUlid = job.volUlid ∧
  r.coordinatorId = some job.coordId

instance : Decidable (job.Holds record) := inferInstanceAs (Decidable (∃ r ∈ record, _))

/-- The record is `Readonly` for this volume. -/
def Published : Prop := ∃ r ∈ record, r.state = .readonly ∧ r.volUlid = job.volUlid

/-- The record `mark_importing` creates where there is none. -/
def importing : NameRecord :=
  ⟨job.volUlid, 0, some job.coordId, .importing, none, some job.now, job.hostname, none, none⟩

/-- The record `mark_import_complete` puts. -/
def complete : NameRecord :=
  ⟨job.volUlid, job.size, none, .readonly, none, none, none, none, job.latestSnapshot⟩

/-- What a write makes of the record. -/
def written (reply : StoreReply) (new : Option NameRecord) : Option NameRecord :=
  if reply = .failed then record else new

/-- `clear_importing` deletes the import's own binding only. -/
def clearImporting (reply : StoreReply) : Option NameRecord :=
  if job.Holds record then written record reply none else record

end ImportJob

/-- Where the coordinator is. -/
inductive ImportTask where
  /-- The worker runs, or its exit is not yet seen. -/
  | running
  | marking
  | destroyKey
  | failing
  | finishing
  | idle
  | down
  /-- A worker in its serve phase has outlived its coordinator and is left alone. -/
  | serving
  /-- The stale lock is removed, the record not yet looked at. -/
  | clearing
  deriving DecidableEq

/-- The record of the name, the files of the volume's directory, and the coordinator. -/
structure ImportWorld where
  record : Option NameRecord
  key : Bool
  lock : Bool
  /-- The gate has not yet tried to create the record. -/
  gate : Bool
  task : ImportTask

/-- What happens to an import. -/
inductive ImportAct where
  | writeKey
  /-- `mark_importing`. -/
  | claim (reply : StoreReply)
  /-- The worker exits, and its `volume.toml` has a size. -/
  | exit (success : Bool)
  /-- `mark_import_complete`. -/
  | mark (reply : StoreReply)
  | removeKey (ok : Bool)
  | clear (reply : StoreReply)
  | unlock (ok : Bool)
  | crash
  /-- `cleanup_stale_lock_in`: the worker may be alive with its socket, the unlink may fail. -/
  | start (alive ok : Bool)
  | workerGone
  /-- `clear_stale_import_records`: the directory may not give the name. -/
  | clearStale (named : Bool) (reply : StoreReply)

namespace ImportWorld

variable (job : ImportJob) (s : ImportWorld)

/-- One action. A reply may be lost after the store has written. -/
def step : ImportAct → ImportWorld
  | .writeKey => if s.task = .running then { s with key := true } else s
  | .claim reply =>
    if s.gate = true ∧ s.key = true then
      { s with
        gate := false
        record :=
          if s.record = none then ImportJob.written none reply (some job.importing) else s.record }
    else s
  | .exit success =>
    if s.task = .running then { s with task := if success then .marking else .failing } else s
  | .mark reply =>
    if s.task = .marking then
      if job.Holds s.record then
        { s with
          record := ImportJob.written s.record reply (some job.complete)
          task := if reply = .applied then .destroyKey else .failing }
      else { s with task := .failing }
    else s
  | .removeKey ok =>
    if s.task = .destroyKey then { s with key := !ok, task := .finishing } else s
  | .clear reply =>
    if s.task = .failing then
      { s with record := job.clearImporting s.record reply, task := .finishing }
    else s
  | .unlock ok => if s.task = .finishing then { s with lock := !ok, task := .idle } else s
  | .crash => { s with gate := false, task := .down }
  | .start alive ok =>
    if s.task = .down then
      if s.lock = false then { s with task := .idle }
      else if alive then { s with task := .serving }
      else { s with lock := !ok, task := .clearing }
    else s
  | .workerGone => if s.task = .serving then { s with task := .idle } else s
  | .clearStale named reply =>
    if s.task = .clearing then
      { s with
        record := if named then job.clearImporting s.record reply else s.record
        task := .idle }
    else s

/-- How an import is to end: a published volume has no key, and no `Importing` record is left. -/
def Ends : Prop := (job.Published s.record → s.key = false) ∧ ¬ job.Holds s.record

/-- A published volume has no key, or the coordinator is about to destroy it. An `Importing` record
belongs to an import that is under way, or whose lock the next start finds. -/
structure Kept : Prop where
  published : job.Published s.record → s.key = true → s.task = .destroyKey
  importing : job.Holds s.record → s.task ≠ .idle ∧ (s.task = .down → s.lock = true)

theorem kept_iff_ends {s : ImportWorld} (h : s.task = .idle) : s.Kept job ↔ s.Ends job := by
  constructor
  · intro hk
    refine ⟨fun hp => ?_, fun hh => (hk.importing hh).1 h⟩
    by_contra hkey
    cases h.symm.trans (hk.published hp (by simpa using hkey))
  · rintro ⟨hp, hh⟩
    exact ⟨fun hpub hkey => by simp [hp hpub] at hkey, fun hold => absurd hold hh⟩

/-- The steps that keep it: none that ends the import with its record left, and none between the
flip and the removal of the key. -/
def Careful : ImportAct → Prop
  | .claim reply => s.gate = true → s.key = true → s.record = none → s.task = .idle → reply = .failed
  | .mark reply => s.task = .marking → job.Holds s.record → reply ≠ .unreported
  | .removeKey ok => s.task = .destroyKey → ok = true
  | .unlock _ => s.task = .finishing → ¬ job.Holds s.record
  | .crash => s.task ≠ .destroyKey ∧ (s.task = .clearing → job.Holds s.record → s.lock = true)
  | .workerGone => s.task = .serving → ¬ job.Holds s.record
  | .clearStale named reply =>
    s.task = .clearing → job.Holds s.record → named = true ∧ reply ≠ .failed
  | _ => True

/-- What every state has: the record is created after the key, and the lock goes last. -/
structure Inv : Prop where
  key : job.Holds s.record → s.key = true
  lock : s.task ∉ [.idle, .down, .clearing] → s.lock = true
  running : s.task = .running → ¬ job.Published s.record
  down : s.task = .down → s.gate = false
  destroyKey : s.task = .destroyKey → job.Published s.record ∧ s.key = true

variable {job s}

theorem not_published_of_holds {record : Option NameRecord} (h : job.Holds record) :
    ¬ job.Published record := by
  rintro ⟨r, hr, hstate, -⟩
  obtain ⟨r', hr', hstate', -⟩ := h
  cases Option.mem_unique hr hr'
  rw [hstate] at hstate'
  cases hstate'

/-- **One step** of an import, whatever it is. -/
theorem step_spec (h : s.Inv job) (hk : s.Kept job) (a : ImportAct) :
    (s.step job a).Inv job ∧ ((s.step job a).Kept job ↔ s.Careful job a) := by
  have hpub := @not_published_of_holds job s.record
  have hnone : ¬ job.Holds none ∧ ¬ job.Published none := by
    constructor <;> rintro ⟨_, ⟨⟩, -⟩
  cases a with
  | claim reply =>
    have hnew : job.Holds (some job.importing) := ⟨_, rfl, rfl, rfl, rfl⟩
    have := not_published_of_holds hnew
    simp only [step, Careful, ImportJob.written]
    grind [Kept, Inv]
  | mark reply =>
    have hnew : job.Published (some job.complete) := ⟨_, rfl, rfl, rfl⟩
    simp only [step, Careful, ImportJob.written]
    cases reply <;> grind [Kept, Inv]
  | clear | clearStale =>
    simp only [step, Careful, ImportJob.clearImporting, ImportJob.written]
    grind [Kept, Inv]
  | _ =>
    -- no other step writes to the store
    simp only [step, Careful]
    grind [Kept, Inv]

/-- The replies and the moments that leave no record behind: a clear of the import's own record is
applied, the gate creates none once that has been tried, and no worker that serves still holds one. -/
def Prompt (job : ImportJob) (s : ImportWorld) : ImportAct → Prop
  | .claim reply => s.gate = true → s.key = true → s.record = none →
    s.task ∈ [.finishing, .serving, .idle] → reply = .failed
  | .clear reply => s.task = .failing → job.Holds s.record → reply ≠ .failed
  | .start alive _ => s.task = .down → s.lock = true → job.Holds s.record → alive = false
  | .unlock _ | .workerGone => True
  | a => s.Careful job a

/-- An import begins: the lock is written, and the name may be taken by another volume. -/
def start (record : Option NameRecord) : ImportWorld := ⟨record, false, true, true, .running⟩

theorem careful_of_prompt (job : ImportJob) {record : Option NameRecord}
    (hfresh : ∀ r ∈ record, r.volUlid ≠ job.volUlid) {as : List ImportAct}
    (h : Run.Each (step job) (Prompt job) (start record) as) :
    Run.Each (step job) (Careful job) (start record) as := by
  have hh : ¬ job.Holds record := fun ⟨r, hr, h⟩ => hfresh r hr h.2.1
  -- an import that has only its lock to remove has left no record
  refine Run.each_of_keeps
    (I := fun s => (s.task = .destroyKey → s.record ≠ none ∧ ¬ job.Holds s.record) ∧
      (s.task ∈ [.finishing, .serving] → ¬ job.Holds s.record))
    (fun s a hI ha => ?_) (fun s a hI ha _ => ?_) ⟨nofun, by simp [start]⟩ h h
  · have hnew : ¬ job.Holds (some job.complete) := by
      rintro ⟨r, hr, hstate, -⟩
      cases Option.some.inj hr
      cases hstate
    have hnone : ¬ job.Holds none := by rintro ⟨_, ⟨⟩, -⟩
    cases a <;> simp only [step, Prompt, Careful, ImportJob.clearImporting, ImportJob.written] at * <;>
      grind
  · cases a <;> simp only [Prompt, Careful] at * <;> grind

/-- **The key of an imported volume.** Exactly the careful runs keep the promise in every state, and
where no import is in progress the promise is that it has ended as it should. -/
theorem kept_iff (job : ImportJob) (record : Option NameRecord)
    (hfresh : ∀ r ∈ record, r.volUlid ≠ job.volUlid) (as : List ImportAct) :
    (Run.Always (step job) (Kept job) (start record) as ↔
      Run.Each (step job) (Careful job) (start record) as) ∧
    ∀ s : ImportWorld, s.task = .idle → (s.Kept job ↔ s.Ends job) := by
  have hh : ¬ job.Holds record := fun ⟨r, hr, h⟩ => hfresh r hr h.2.1
  have hp : ¬ job.Published record := fun ⟨r, hr, h⟩ => hfresh r hr h.2
  refine ⟨?_, fun s => kept_iff_ends job⟩
  have hI : (start record).Inv job :=
    ⟨fun h => absurd h hh, fun _ => rfl, fun _ => hp, nofun, nofun⟩
  exact Run.always_iff_each_of_keeps (I := fun _ => True) (L := fun _ _ => True) (Q := Inv job)
    (fun _ _ _ _ => trivial) (fun _ a _ _ hk hI => (step_spec hI hk a).2)
    (fun _ a _ _ hk hI _ => (step_spec hI hk a).1) trivial
    ⟨fun h => absurd h hp, fun h => absurd h hh⟩ hI (Run.each_of_forall (fun _ _ => trivial) _ _)

/-- An import of volume 1 by the coordinator without a name. -/
def oneImport : ImportJob := ⟨[], none, 1, [], 1, none⟩

theorem kept_iff_oneImport :
    Run.Always (step oneImport) (Kept oneImport) (start none)
      [.writeKey, .claim .applied, .exit true, .mark .applied, .removeKey true, .unlock true] :=
  (kept_iff oneImport none nofun _).1.mpr
    ⟨trivial, nofun, trivial, fun _ _ => nofun, fun _ => rfl,
      fun _ h => not_published_of_holds h ⟨_, rfl, rfl, rfl⟩, trivial⟩

/-- The coordinator dies between the flip and the key; and an import fails while its gate is still
about to create the record. -/
theorem key_outlives_readonly :
    (∃ s, s = [ImportAct.writeKey, .claim .applied, .exit true, .mark .applied, .crash,
        .start false true, .clearStale true .applied].foldl (step oneImport) (start none) ∧
      s.task = .idle ∧ oneImport.Published s.record ∧ s.key = true) ∧
    ∃ s, s = [ImportAct.writeKey, .exit false, .clear .applied, .claim .applied,
        .unlock true].foldl (step oneImport) (start none) ∧
      s.task = .idle ∧ oneImport.Holds s.record :=
  ⟨⟨_, rfl, rfl, ⟨_, rfl, rfl, rfl⟩, rfl⟩, _, rfl, rfl, by decide⟩

end ImportWorld

end Elide
