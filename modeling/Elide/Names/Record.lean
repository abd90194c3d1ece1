import Elide.Segment
import Elide.Lib.Text

/-!
# Name records

`names/<name>` binds a name to a fork. Every verb reads the record, decides, and writes it back under
the version it has read, so a record never changes between a verb's decision and its write. What a
verb does is given here by what it does with the record it reads: it answers, or it has a record to
put and an answer for when the put succeeds.

## Main results

* `released_of_markClaimed`: only a released name is claimed.
* `volUlid_markStopped` and its like: which fork the name is bound to after each verb.
-/

namespace Elide

/-- The state a name is in. -/
inductive NameState where
  | live
  | stopped
  | released
  | readonly
  | importing
  deriving DecidableEq

/-- The verbs that move a name between states. -/
inductive Lifecycle where
  | stop
  | release
  | start
  | claim
  | forceClaim
  deriving DecidableEq

/-- What a state says of a verb. -/
inductive TransitionCheck where
  | proceed
  | idempotent
  | reroute
  | refuse
  deriving DecidableEq

/-- The table of transitions. -/
def NameState.checkTransition : NameState → Lifecycle → TransitionCheck
  | .importing, _ => .refuse
  | .live, .stop => .proceed
  | .stopped, .stop => .idempotent
  | .released, .stop | .readonly, .stop => .refuse
  | .live, .release | .stopped, .release => .proceed
  | .released, .release => .idempotent
  | .readonly, .release => .refuse
  | .live, .start => .idempotent
  | .stopped, .start => .proceed
  | .released, .start => .reroute
  | .readonly, .start => .refuse
  | .released, .claim => .proceed
  | .live, .claim | .stopped, .claim | .readonly, .claim => .refuse
  | .live, .forceClaim | .stopped, .forceClaim => .proceed
  | .released, .forceClaim => .reroute
  | .readonly, .forceClaim => .refuse

/-- A snapshot of a fork. -/
structure Pin where
  vol : Ulid
  snap : Ulid
  deriving DecidableEq

/-- The record under `names/<name>`. -/
structure NameRecord where
  volUlid : Ulid
  size : ℕ
  coordinatorId : Option Text
  state : NameState
  parent : Option Pin
  claimedAt : Option Text
  hostname : Option Text
  handoffSnapshot : Option Ulid
  latestSnapshot : Option Ulid
  deriving DecidableEq

/-- Why a verb fails. -/
inductive LifecycleError where
  /-- The conditional PUT found another version. -/
  | preconditionFailed
  | ownershipConflict (heldBy : Text)
  | invalidTransition (state : NameState) (verb : Lifecycle)
  deriving DecidableEq

/-- What a verb does with the record it has read. -/
inductive Verdict (ρ : Type) where
  | reply (outcome : Except LifecycleError ρ)
  /-- Put the record under the version read, and answer by whether that version still stood. -/
  | put (record : NameRecord) (outcome : ρ) (raced : Except LifecycleError ρ)

namespace Verdict

variable {ρ : Type}

/-- The record a verdict puts. -/
def record? : Verdict ρ → Option NameRecord
  | reply _ => none
  | put record _ _ => some record

/-- A put whose loss is a store error. -/
def update (record : NameRecord) (outcome : ρ) : Verdict ρ :=
  put record outcome (.error .preconditionFailed)

end Verdict

/-- Who runs a verb, and when. -/
structure Caller where
  coordId : Text
  hostname : Option Text
  now : Text

namespace NameRecord

/-- The owner of the record, if it is another coordinator. -/
def checkOwner (record : NameRecord) (coordId : Text) : Except LifecycleError Unit :=
  match record.coordinatorId with
  | some existing => if existing = coordId then .ok () else .error (.ownershipConflict existing)
  | none => .ok ()

/-- Fill in what the record lacks of its owner. -/
def ensureOwnerFields (record : NameRecord) (caller : Caller) : NameRecord :=
  { record with
    coordinatorId := some (record.coordinatorId.getD caller.coordId)
    claimedAt := some (record.claimedAt.getD caller.now)
    hostname := record.hostname.or caller.hostname }

end NameRecord

/-- What `mark_stopped` returns. -/
inductive MarkStoppedOutcome where
  | updated
  | absent
  | alreadyStopped

variable (caller : Caller)

/-- Stop: the record keeps its owner. -/
def markStopped : Option NameRecord → Verdict MarkStoppedOutcome
  | none => .reply (.ok .absent)
  | some record =>
    match record.checkOwner caller.coordId with
    | .error e => .reply (.error e)
    | .ok () =>
      match record.state.checkTransition .stop with
      | .proceed => .update ({ record with state := .stopped }.ensureOwnerFields caller) .updated
      | .idempotent => .reply (.ok .alreadyStopped)
      | .reroute | .refuse => .reply (.error (.invalidTransition record.state .stop))

/-- What `mark_released` returns. -/
inductive MarkReleasedOutcome where
  | updated (volUlid : Ulid)
  | absent
  | alreadyReleased

/-- Release: the owner is cleared and the snapshot left for the next. -/
def markReleased (coordId : Text) (handoffSnapshot : Ulid) :
    Option NameRecord → Verdict MarkReleasedOutcome
  | none => .reply (.ok .absent)
  | some record =>
    match record.checkOwner coordId with
    | .error e => .reply (.error e)
    | .ok () =>
      match record.state.checkTransition .release with
      | .proceed =>
        .update { record with
          state := .released
          handoffSnapshot := some handoffSnapshot
          latestSnapshot := some (record.latestSnapshot.elim handoffSnapshot (max · handoffSnapshot))
          coordinatorId := none
          claimedAt := none
          hostname := none } (.updated record.volUlid)
      | .idempotent => .reply (.ok .alreadyReleased)
      | .reroute | .refuse => .reply (.error (.invalidTransition record.state .release))

/-- What `mark_live` returns. -/
inductive MarkLiveOutcome where
  | resumed
  | absent
  | alreadyLive
  | released

/-- Start a stopped name of one's own. -/
def markLive : Option NameRecord → Verdict MarkLiveOutcome
  | none => .reply (.ok .absent)
  | some record =>
    match record.checkOwner caller.coordId with
    | .error e => .reply (.error e)
    | .ok () =>
      match record.state.checkTransition .start with
      | .proceed => .update ({ record with state := .live }.ensureOwnerFields caller) .resumed
      | .idempotent => .reply (.ok .alreadyLive)
      | .reroute => .reply (.ok .released)
      | .refuse => .reply (.error (.invalidTransition record.state .start))

/-- What `mark_reclaimed_local` returns. -/
inductive MarkReclaimedLocalOutcome where
  | reclaimed
  | absent
  | notReleased (observedState : NameState) (observedVolUlid : Ulid)
  | forkMismatch (localVolUlid releasedVolUlid : Ulid)

/-- In-place reclaim. The handoff snapshot is kept. -/
def markReclaimedLocal (localVolUlid : Ulid) (targetState : NameState) :
    Option NameRecord → Verdict MarkReclaimedLocalOutcome
  | none => .reply (.ok .absent)
  | some record =>
    match record.state.checkTransition .claim with
    | .proceed =>
      if record.volUlid = localVolUlid then
        .update { record with
          state := targetState
          coordinatorId := some caller.coordId
          claimedAt := some caller.now
          hostname := caller.hostname } .reclaimed
      else .reply (.ok (.forkMismatch localVolUlid record.volUlid))
    | .idempotent | .reroute | .refuse => .reply (.ok (.notReleased record.state record.volUlid))

/-- What `mark_initial` returns. -/
inductive MarkInitialOutcome where
  | claimed
  | alreadyExists (volUlid : Ulid) (state : NameState) (owner : Option Text)

/-- Create the record if there is none. A creation that loses a race reads the winner's record for its
answer, which is left out. -/
def createInitialRecord (record : NameRecord) : Option NameRecord → Verdict MarkInitialOutcome
  | some existing =>
    .reply (.ok (.alreadyExists existing.volUlid existing.state existing.coordinatorId))
  | none => .update record .claimed

/-- Create the record of a new volume. -/
def markInitial (volUlid : Ulid) (size : ℕ) : Option NameRecord → Verdict MarkInitialOutcome :=
  createInitialRecord
    { volUlid := volUlid
      size := size
      coordinatorId := some caller.coordId
      state := .live
      parent := none
      claimedAt := some caller.now
      hostname := caller.hostname
      handoffSnapshot := none
      latestSnapshot := none }

/-- What `record_latest_snapshot` returns. -/
inductive RecordLatestSnapshotOutcome where
  | recorded
  | alreadyCurrent
  | staleBinding (boundVolUlid : Ulid)
  | absent
  | raced

/-- Note a published snapshot, which only moves forward. -/
def recordLatestSnapshot (volUlid snapUlid : Ulid) :
    Option NameRecord → Verdict RecordLatestSnapshotOutcome
  | none => .reply (.ok .absent)
  | some record =>
    if record.volUlid ≠ volUlid then .reply (.ok (.staleBinding record.volUlid))
    else if record.latestSnapshot.any fun cur => decide (snapUlid ≤ cur) then
      .reply (.ok .alreadyCurrent)
    else .put { record with latestSnapshot := some snapUlid } .recorded (.ok .raced)

/-- What `mark_claimed` returns. -/
inductive MarkClaimedOutcome where
  | claimed
  | absent
  | notReleased (observed : NameState)

variable (newVolUlid : Ulid)

/-- Claim a released name for a new fork. -/
def markClaimed (targetState : NameState) : Option NameRecord → Verdict MarkClaimedOutcome
  | none => .reply (.ok .absent)
  | some existing =>
    match existing.state.checkTransition .claim with
    | .proceed =>
      .update
        { volUlid := newVolUlid
          size := existing.size
          coordinatorId := some caller.coordId
          state := targetState
          parent := existing.handoffSnapshot.map fun snap => ⟨existing.volUlid, snap⟩
          claimedAt := some caller.now
          hostname := caller.hostname
          handoffSnapshot := none
          latestSnapshot := none } .claimed
    | .idempotent | .reroute | .refuse => .reply (.ok (.notReleased existing.state))

/-- What `mark_claimed_force` returns. -/
inductive MarkClaimedForceOutcome where
  | claimed (displacedCoordinatorId : Option Text)
  | raced

/-- The forced rebind over the record observed, whose state the caller has checked. -/
def markClaimedForce (parentPin : Option Pin)
    (observed : NameRecord) : Verdict MarkClaimedForceOutcome :=
  .put
    { volUlid := newVolUlid
      size := observed.size
      coordinatorId := some caller.coordId
      state := .stopped
      parent := parentPin
      claimedAt := some caller.now
      hostname := caller.hostname
      handoffSnapshot := none
      latestSnapshot := none } (.claimed observed.coordinatorId) (.ok .raced)

/-- The record that a fresh forced claim puts over the one it has observed. It is refused by the state,
and over a record of the caller's own. -/
def forceClaimRecord (parentPin : Option Pin) : Option NameRecord → Option NameRecord
  | none => none
  | some observed =>
    if observed.state.checkTransition .forceClaim = .proceed ∧
        observed.coordinatorId ≠ some caller.coordId then
      (markClaimedForce caller newVolUlid parentPin observed).record?
    else none

/-- A claim is put over a released record only. -/
theorem released_of_markClaimed {caller : Caller} {newVolUlid : Ulid} {targetState : NameState}
    {existing : Option NameRecord} {record : NameRecord}
    (h : (markClaimed caller newVolUlid targetState existing).record? = some record) :
    ∃ r, existing = some r ∧ r.state = .released := by
  cases existing with
  | none => cases h
  | some r =>
    cases hstate : r.state <;> simp [markClaimed, hstate, NameState.checkTransition,
      Verdict.record?] at h ⊢

/-! ### The fork a verb binds

All verbs but the creations and the claims keep the fork of the record they read. -/

section Binds

variable {caller : Caller} {read : Option NameRecord} {put : NameRecord}

theorem volUlid_markStopped (h : (markStopped caller read).record? = some put) :
    ∃ r, read = some r ∧ put.volUlid = r.volUlid := by
  cases read with
  | none => cases h
  | some r =>
    refine ⟨r, rfl, ?_⟩
    rw [markStopped] at h
    split at h
    · cases h
    · split at h <;> cases h
      rfl

theorem volUlid_markReleased {coordId : Text} {handoffSnapshot : Ulid}
    (h : (markReleased coordId handoffSnapshot read).record? = some put) :
    ∃ r, read = some r ∧ put.volUlid = r.volUlid := by
  cases read with
  | none => cases h
  | some r =>
    refine ⟨r, rfl, ?_⟩
    rw [markReleased] at h
    split at h
    · cases h
    · split at h <;> cases h
      rfl

theorem volUlid_markLive (h : (markLive caller read).record? = some put) :
    ∃ r, read = some r ∧ put.volUlid = r.volUlid := by
  cases read with
  | none => cases h
  | some r =>
    refine ⟨r, rfl, ?_⟩
    rw [markLive] at h
    split at h
    · cases h
    · split at h <;> cases h
      rfl

theorem volUlid_markReclaimedLocal {localVolUlid : Ulid} {targetState : NameState}
    (h : (markReclaimedLocal caller localVolUlid targetState read).record? = some put) :
    ∃ r, read = some r ∧ put.volUlid = r.volUlid := by
  cases read with
  | none => cases h
  | some r =>
    refine ⟨r, rfl, ?_⟩
    rw [markReclaimedLocal] at h
    split at h
    · split_ifs at h <;> cases h
      rfl
    all_goals cases h

theorem volUlid_recordLatestSnapshot {volUlid snapUlid : Ulid}
    (h : (recordLatestSnapshot volUlid snapUlid read).record? = some put) :
    ∃ r, read = some r ∧ put.volUlid = r.volUlid := by
  cases read with
  | none => cases h
  | some r =>
    refine ⟨r, rfl, ?_⟩
    rw [recordLatestSnapshot] at h
    split_ifs at h <;> cases h
    rfl

theorem volUlid_markInitial {volUlid : Ulid} {size : ℕ}
    (h : (markInitial caller volUlid size read).record? = some put) : put.volUlid = volUlid := by
  cases read with
  | none =>
    cases h
    rfl
  | some r => cases h

theorem volUlid_markClaimed {newVolUlid : Ulid} {targetState : NameState}
    (h : (markClaimed caller newVolUlid targetState read).record? = some put) :
    put.volUlid = newVolUlid := by
  cases read with
  | none => cases h
  | some r =>
    rw [markClaimed] at h
    split at h <;> cases h
    rfl

theorem volUlid_forceClaimRecord {newVolUlid : Ulid} {parentPin : Option Pin}
    (h : forceClaimRecord caller newVolUlid parentPin read = some put) :
    put.volUlid = newVolUlid := by
  cases read with
  | none => cases h
  | some r =>
    rw [forceClaimRecord] at h
    split_ifs at h
    cases h
    rfl

end Binds

end Elide
