import Elide.Fork.Skip
import Elide.Names.Record
import Mathlib.Logic.Function.Basic

/-!
# What a claim continues

A claim of a released name reads the record twice. The first read gives the pair of volume and handoff
snapshot that the new fork is built on, and the run keeps that pair through key generation and
uploads. The second read, in `markClaimed`, is the one the conditional PUT is bound to, and all it
asks is that the record is released. So the PUT says that the record has not changed since the second
read, and nothing about the first.

Between the two another coordinator can claim the name, write to it and release it. The run then puts
its record over the other's and pins its fork to the pair it read first. Where that pair and the one of
the record replaced lead over empty forks to the same ancestor, the pin is right all the same, and that
is the exact condition.

## Main results

* `NameWorld.continues_iff`: along any interleaving, every finalized claim is pinned to the volume
  whose record it replaced, or to an ancestor its empty forks lead to, exactly when each run that
  finalizes carries a pair that joins the one of the record it replaced.
* `NameWorld.continues_of_undisturbed`: so it is where no PUT lands between the two reads of a claim.
* `NameWorld.stale_pair_finalizes`: a run that drops what another coordinator has written.
-/

namespace Elide

open Function

/-! ### Pins and the skip -/

/-- The pair the fork is pinned by. -/
def ReleasedFork.pin (f : ReleasedFork) : Pin := ⟨f.vol, f.snapshot⟩

/-- What reading a pin gives: the fork up to that snapshot, and the chain of its ancestors. Provenances
of released forks and manifests do not change, so this is fixed. A pin that cannot be read has a fork
whose `read` fails. -/
structure Forest where
  fork : Pin → ReleasedFork
  ancestors : Pin → List ReleasedFork
  pin_fork : ∀ p, (fork p).pin = p
  ancestors_eq : ∀ {p parent rest}, ancestors p = parent :: rest →
    fork parent.pin = parent ∧ ancestors parent.pin = rest

namespace Forest

variable (forest : Forest)

/-- The parent of a fork of the pin, empty forks skipped. -/
def skipEmptyIntermediates (p : Pin) : Except String Pin :=
  ((forest.fork p).skipEmptyIntermediates (forest.ancestors p)).map fun r => r.1.pin

/-- The second pin is the first, or an ancestor of it with only empty forks on the way. -/
inductive SkipsTo : Pin → Pin → Prop
  | refl (p : Pin) : SkipsTo p p
  | parent {p q : Pin} {parent : ReleasedFork} {rest : List ReleasedFork}
      (hparent : forest.ancestors p = parent :: rest)
      (hempty : (forest.fork p).isEmpty parent.snapshot = true) (h : SkipsTo parent.pin q) :
      SkipsTo p q

/-- Empty forks lead from both pins to one ancestor. -/
def Joins (p q : Pin) : Prop := ∃ a, forest.SkipsTo p a ∧ forest.SkipsTo q a

variable {forest}

section

variable {p e : Pin} (h : forest.skipEmptyIntermediates p = .ok e)
include h

theorem exists_of_skip :
    ∃ g rest, (forest.fork p).skipEmptyIntermediates (forest.ancestors p) = .ok (g, rest) ∧
      g.pin = e := by
  obtain ⟨r, hskip, h⟩ := Run.exists_of_bind_ok h
  cases h
  exact ⟨r.1, r.2, hskip, rfl⟩

/-- One iteration of the skip. -/
theorem skip_cases : (p = e ∧ ∀ parent ∈ (forest.ancestors p).head?,
        (forest.fork p).isEmpty parent.snapshot = false) ∨
      ∃ parent rest, forest.ancestors p = parent :: rest ∧
        (forest.fork p).isEmpty parent.snapshot = true ∧
        forest.skipEmptyIntermediates parent.pin = .ok e := by
  obtain ⟨g, rest, hskip, rfl⟩ := exists_of_skip h
  rcases ReleasedFork.exists_skipped hskip with ⟨hg, -, hstop⟩ | ⟨parent, rest', heq, hempty, hrest⟩
  · refine .inl ⟨?_, hstop⟩
    rw [← hg, forest.pin_fork]
  · refine .inr ⟨parent, rest', heq, hempty, ?_⟩
    obtain ⟨hfork, hanc⟩ := forest.ancestors_eq heq
    rw [skipEmptyIntermediates, hfork, hanc, hrest]
    rfl

/-- The skip returns an ancestor that empty forks lead to. -/
theorem skipsTo_of_skip : forest.SkipsTo p e := by
  -- the chain gets shorter with each iteration
  induction hlen : (forest.ancestors p).length generalizing p with
  | zero =>
    rcases skip_cases h with ⟨rfl, -⟩ | ⟨parent, rest, heq, -⟩
    · exact .refl p
    · simp [heq] at hlen
  | succ n ih =>
    rcases skip_cases h with ⟨rfl, -⟩ | ⟨parent, rest, heq, hempty, hrest⟩
    · exact .refl p
    · refine .parent heq hempty (ih hrest ?_)
      rw [(forest.ancestors_eq heq).2]
      simpa [heq] using hlen

end

/-- From every pin on the way the skip ends at the same place. -/
theorem skip_of_skipsTo {p q e : Pin} (hq : forest.SkipsTo p q)
    (h : forest.skipEmptyIntermediates p = .ok e) : forest.skipEmptyIntermediates q = .ok e := by
  induction hq with
  | refl p => exact h
  | parent hparent hempty _ ih =>
    rcases skip_cases h with ⟨-, hstop⟩ | ⟨parent', rest', heq, -, hrest⟩
    · rw [hparent] at hstop
      rw [hstop _ rfl] at hempty
      cases hempty
    · rw [hparent] at heq
      obtain ⟨rfl, -⟩ := List.cons.inj heq
      exact ih hrest

theorem SkipsTo.trans {p q r : Pin} (hpq : forest.SkipsTo p q) (hqr : forest.SkipsTo q r) :
    forest.SkipsTo p r := by
  induction hpq with
  | refl p => exact hqr
  | parent hparent hempty _ ih => exact .parent hparent hempty (ih hqr)

/-- Where the skip of one pin ends, empty forks lead to from another exactly if the two join. -/
theorem joins_iff {p q e : Pin} (h : forest.skipEmptyIntermediates p = .ok e) :
    forest.Joins p q ↔ forest.SkipsTo q e := by
  constructor
  · rintro ⟨a, hp, hq⟩
    exact hq.trans (skipsTo_of_skip (skip_of_skipsTo hp h))
  · exact fun hq => ⟨e, skipsTo_of_skip h, hq⟩

end Forest

/-! ### The record and the runs on it -/

/-- `names/<name>`, with the version a conditional PUT is bound to. -/
structure NameCell where
  version : ℕ
  record : Option NameRecord

/-- The conditional PUT. -/
def NameCell.put (cell : NameCell) (version : ℕ) (record : NameRecord) : NameCell :=
  if version = cell.version then ⟨cell.version + 1, some record⟩ else cell

/-- The verbs beside the claims. Each is a read and a conditional PUT. -/
inductive NameVerb where
  | stop (caller : Caller)
  | release (coordId : Text) (handoffSnapshot : Ulid)
  | start (caller : Caller)
  | recordLatestSnapshot (volUlid snapUlid : Ulid)
  | forceClaim (caller : Caller) (newVolUlid : Ulid) (parentPin : Option Pin)

/-- The record a verb puts over the one it reads. -/
def NameVerb.record? : NameVerb → Option NameRecord → Option NameRecord
  | stop caller, read => (markStopped caller read).record?
  | release coordId handoffSnapshot, read => (markReleased coordId handoffSnapshot read).record?
  | start caller, read => (markLive caller read).record?
  | .recordLatestSnapshot volUlid snapUlid, read =>
    (Elide.recordLatestSnapshot volUlid snapUlid read).record?
  -- the resume of one's own forced claim puts nothing
  | forceClaim caller newVolUlid parentPin, read => forceClaimRecord caller newVolUlid parentPin read

/-- How far a claim has come. What is kept of the record replaced is for the statement only. -/
inductive ClaimRun where
  | idle
  /-- Before the read of `markReclaimedLocal`. -/
  | reclaiming (releasedVolUlid : Ulid) (handoffSnapshot : Option Ulid)
  /-- Before the PUT of `markReclaimedLocal`. -/
  | reclaimPut (version : ℕ) (record : NameRecord)
  /-- Before the read of `markClaimed`, with the pair the new fork is built on. -/
  | carrying (pin : Pin)
  /-- Before the PUT of `markClaimed`. -/
  | claiming (pin : Pin) (version : ℕ) (record : NameRecord)
  | claimed (pin : Pin) (replaced : NameRecord)
  /-- The provenance is written, with this parent. -/
  | finalized (parent : Pin) (replaced : NameRecord)
  | ended

/-- What a claim does next. -/
inductive ClaimAct where
  | look (localVolUlid : Option Ulid)
  | reclaimRead (caller : Caller)
  | reclaimPut
  | claimRead (caller : Caller) (newVolUlid : Ulid)
  | claimPut
  | finalize
  /-- A crash, or an error of any other operation. -/
  | fail

namespace ClaimRun

/-- `MustClaimFresh`: a claim of a released name without a handoff snapshot is refused. -/
def mustClaimFresh (releasedVolUlid : Ulid) : Option Ulid → ClaimRun
  | some snap => carrying ⟨releasedVolUlid, snap⟩
  | none => ended

/-- The first read. Only a released record leads on, in place if the local fork is the one released. -/
def claimVolumeBucketOp (localVolUlid : Option Ulid) : Option NameRecord → ClaimRun
  | none => ended
  | some record =>
    match record.state with
    | .released =>
      if localVolUlid ≠ some record.volUlid then
        mustClaimFresh record.volUlid record.handoffSnapshot
      else reclaiming record.volUlid record.handoffSnapshot
    | .live | .stopped | .readonly | .importing => ended

/-- The read of an in-place reclaim. On a mismatch the claim goes on with the volume of this read and
the snapshot of the first. -/
def reclaimRead (caller : Caller) (releasedVolUlid : Ulid) (handoffSnapshot : Option Ulid)
    (cell : NameCell) : ClaimRun :=
  match markReclaimedLocal caller releasedVolUlid .stopped cell.record with
  | .put record _ _ => reclaimPut cell.version record
  | .reply (.ok (.forkMismatch _ racedVolUlid)) => mustClaimFresh racedVolUlid handoffSnapshot
  | .reply _ => ended

/-- The claim reads the record and decides its PUT. -/
def claimRead (caller : Caller) (newVolUlid : Ulid) (pin : Pin) (cell : NameCell) : ClaimRun :=
  match (markClaimed caller newVolUlid .stopped cell.record).record? with
  | some record => claiming pin cell.version record
  | none => ended

/-- The conditional PUT of the claim. -/
def claimPut (pin : Pin) (version : ℕ) (cell : NameCell) : ClaimRun :=
  match cell.record with
  | some replaced => if version = cell.version then claimed pin replaced else ended
  | none => ended

/-- The claim writes the fork's provenance. -/
def finalize (forest : Forest) (pin : Pin) (replaced : NameRecord) : ClaimRun :=
  match forest.skipEmptyIntermediates pin with
  | .ok parent => finalized parent replaced
  | .error _ => ended

/-- One store operation of a claim. -/
def next (forest : Forest) (cell : NameCell) : ClaimRun → ClaimAct → NameCell × ClaimRun
  | idle, .look localVolUlid => (cell, claimVolumeBucketOp localVolUlid cell.record)
  | reclaiming vol handoff, .reclaimRead caller => (cell, reclaimRead caller vol handoff cell)
  | .reclaimPut version record, .reclaimPut => (cell.put version record, ended)
  | carrying pin, .claimRead caller newVolUlid => (cell, claimRead caller newVolUlid pin cell)
  | claiming pin version record, .claimPut =>
    (cell.put version record, claimPut pin version cell)
  | claimed pin replaced, .finalize => (cell, finalize forest pin replaced)
  | finalized parent replaced, _ => (cell, finalized parent replaced)
  | _, .fail => (cell, ended)
  | run, _ => (cell, run)

end ClaimRun

/-- A name, with the verbs and the claims that are under way on it. -/
structure NameWorld where
  cell : NameCell
  /-- The conditional PUTs under way, with the versions they are bound to. -/
  pending : ℕ → Option (ℕ × NameRecord)
  claims : ℕ → ClaimRun

namespace NameWorld

/-- What happens to one name. -/
inductive Action where
  | read (j : ℕ) (verb : NameVerb)
  | put (j : ℕ)
  | claim (i : ℕ) (act : ClaimAct)

/-- One store operation of one of the coordinators. -/
def step (forest : Forest) (w : NameWorld) : Action → NameWorld
  | .read j verb =>
    { w with
      pending := update w.pending j
        ((verb.record? w.cell.record).map fun record => (w.cell.version, record)) }
  | .put j =>
    { w with
      cell := (w.pending j).elim w.cell fun p => w.cell.put p.1 p.2
      pending := update w.pending j none }
  | .claim i act =>
    { w with
      cell := ((w.claims i).next forest w.cell act).1
      claims := update w.claims i ((w.claims i).next forest w.cell act).2 }

/-- Nothing is under way. -/
def quiet (cell : NameCell) : NameWorld where
  cell := cell
  pending _ := none
  claims _ := .idle

end NameWorld

/-- A parent reference that continues the volume of a record: the pair the record names, or an ancestor
that its empty forks lead to. -/
def NameRecord.ContinuedBy (record : NameRecord) (forest : Forest) (parent : Pin) : Prop :=
  record.state = .released ∧
    ∃ snap ∈ record.handoffSnapshot, forest.SkipsTo ⟨record.volUlid, snap⟩ parent

namespace NameWorld

/-- Every finalized claim continues the volume whose record its PUT replaced. -/
def Continues (forest : Forest) (w : NameWorld) : Prop :=
  ∀ i parent replaced, w.claims i = .finalized parent replaced → replaced.ContinuedBy forest parent

/-- A run that finalizes carries a pair that joins the one of the record it replaced. -/
def CarriesReplaced (forest : Forest) (w : NameWorld) : Action → Prop
  | .claim i .finalize => ∀ pin replaced, w.claims i = .claimed pin replaced →
      (forest.skipEmptyIntermediates pin).isOk = true →
      ∃ snap ∈ replaced.handoffSnapshot, forest.Joins pin ⟨replaced.volUlid, snap⟩
  | _ => True

end NameWorld

/-! ### What the version says -/

/-- While the version stands, so does the record. -/
def NameCell.Later (before after : NameCell) : Prop :=
  before.version ≤ after.version ∧ (after.version = before.version → after.record = before.record)

theorem NameCell.Later.refl (cell : NameCell) : cell.Later cell := ⟨le_rfl, fun _ => rfl⟩

theorem NameCell.later_put (cell : NameCell) (version : ℕ) (record : NameRecord) :
    cell.Later (cell.put version record) := by
  rw [put]
  split_ifs with h
  · exact ⟨Nat.le_succ _, fun h' => absurd h' (Nat.succ_ne_self _)⟩
  · exact .refl cell

namespace ClaimRun

variable {forest : Forest} {cell : NameCell} {run : ClaimRun}

theorem later_next (forest : Forest) (cell : NameCell) (run : ClaimRun) (act : ClaimAct) :
    cell.Later (run.next forest cell act).1 := by
  cases run <;> cases act <;>
    first
    | exact .refl cell
    | exact cell.later_put _ _

/-- A PUT that can still succeed has a released record under it, and what was replaced was released. -/
def Ok (cell : NameCell) : ClaimRun → Prop
  | claiming _ version _ => version ≤ cell.version ∧
      (version = cell.version → ∀ r ∈ cell.record, r.state = .released)
  | claimed _ replaced | finalized _ replaced => replaced.state = .released
  | _ => True

theorem Ok.later {after : NameCell} (h : run.Ok cell) (hlater : cell.Later after) :
    run.Ok after := by
  cases run with
  | claiming pin version record =>
    refine ⟨h.1.trans hlater.1, fun hv r hr => ?_⟩
    have hsame : after.version = cell.version := le_antisymm (hv ▸ h.1) hlater.1
    rw [hlater.2 hsame] at hr
    exact h.2 (hv.trans hsame) r hr
  | _ => exact h

theorem ok_mustClaimFresh (vol : Ulid) (handoff : Option Ulid) :
    (mustClaimFresh vol handoff).Ok cell := by
  cases handoff <;> trivial

theorem ok_claimVolumeBucketOp (localVolUlid : Option Ulid) (record : Option NameRecord) :
    (claimVolumeBucketOp localVolUlid record).Ok cell := by
  cases record with
  | none => trivial
  | some r =>
    rw [claimVolumeBucketOp]
    split
    · split_ifs
      · exact ok_mustClaimFresh _ _
      · trivial
    all_goals trivial

theorem ok_reclaimRead (caller : Caller) (vol : Ulid) (handoff : Option Ulid) :
    (reclaimRead caller vol handoff cell).Ok cell := by
  rw [reclaimRead]
  split
  · trivial
  · exact ok_mustClaimFresh _ _
  · trivial

/-- The second read binds the PUT to a released record. -/
theorem ok_claimRead (caller : Caller) (newVolUlid : Ulid) (pin : Pin) :
    (claimRead caller newVolUlid pin cell).Ok cell := by
  rw [claimRead]
  split
  next record hrecord =>
    obtain ⟨r, hr, hreleased⟩ := released_of_markClaimed hrecord
    refine ⟨le_rfl, fun _ r' hr' => ?_⟩
    rw [hr] at hr'
    obtain rfl := Option.some.inj hr'
    exact hreleased
  next => trivial

theorem ok_claimPut {pin : Pin} {version : ℕ} {record : NameRecord}
    (h : (claiming pin version record).Ok cell) (after : NameCell) :
    (claimPut pin version cell).Ok after := by
  rw [claimPut]
  split
  next replaced hreplaced =>
    split_ifs with hv
    · exact h.2 hv replaced hreplaced
    · trivial
  next => trivial

theorem ok_finalize {pin : Pin} {replaced : NameRecord}
    (h : (claimed pin replaced).Ok cell) : (finalize forest pin replaced).Ok cell := by
  rw [finalize]
  split
  · exact h
  · trivial

theorem Ok.next (h : run.Ok cell) (act : ClaimAct) :
    (run.next forest cell act).2.Ok (run.next forest cell act).1 := by
  cases run with
  | idle =>
    cases act with
    | look localVolUlid => exact ok_claimVolumeBucketOp _ _
    | _ => trivial
  | reclaiming vol handoff =>
    cases act with
    | reclaimRead caller => exact ok_reclaimRead caller vol handoff
    | _ => trivial
  | carrying pin =>
    cases act with
    | claimRead caller newVolUlid => exact ok_claimRead caller newVolUlid pin
    | _ => trivial
  | claiming pin version record =>
    cases act with
    | claimPut => exact ok_claimPut h _
    | fail => trivial
    | _ => exact h
  | claimed pin replaced =>
    cases act with
    | finalize => exact ok_finalize h
    | fail => trivial
    | _ => exact h
  | reclaimPut | ended => cases act <;> trivial
  | finalized parent replaced => exact h

/-- A run is finalized by its `finalize` only. -/
theorem finalized_next {act : ClaimAct} {parent : Pin} {replaced : NameRecord} :
    (run.next forest cell act).2 = finalized parent replaced ↔ run = finalized parent replaced ∨
        ∃ pin, run = claimed pin replaced ∧ act = .finalize ∧
          forest.skipEmptyIntermediates pin = .ok parent := by
  cases run with
  | idle =>
    cases act <;> simp only [next, reduceCtorEq, false_and, exists_false, or_false]
    case look localVolUlid =>
      cases cell.record with
      | none => simp [claimVolumeBucketOp]
      | some r =>
        rw [claimVolumeBucketOp]
        cases r.state <;> cases r.handoffSnapshot <;> simp [mustClaimFresh] <;> split_ifs <;> simp
  | reclaiming vol handoff =>
    cases act <;> simp only [next, reduceCtorEq, false_and, exists_false, or_false]
    case reclaimRead caller =>
      rw [reclaimRead]
      split <;> cases handoff <;> simp [mustClaimFresh]
  | reclaimPut | finalized | ended => cases act <;> simp [next]
  | carrying pin =>
    cases act <;> simp only [next, reduceCtorEq, false_and, exists_false, or_false]
    case claimRead caller newVolUlid =>
      rw [claimRead]
      split <;> simp
  | claiming pin version record =>
    cases act <;> simp only [next, reduceCtorEq, false_and, exists_false, or_false]
    case claimPut =>
      rw [claimPut]
      cases cell.record with
      | none => simp
      | some r => dsimp only; split_ifs <;> simp
  | claimed pin r =>
    cases act <;> simp only [next, reduceCtorEq, false_and, and_false, exists_false, or_false]
    case finalize =>
      rw [finalize]
      cases hskip : forest.skipEmptyIntermediates pin with
      | error m => simp [hskip]
      | ok e =>
        simp only [finalized.injEq, claimed.injEq, false_or]
        constructor
        · rintro ⟨rfl, rfl⟩
          exact ⟨pin, ⟨rfl, rfl⟩, trivial, hskip⟩
        · rintro ⟨_, ⟨rfl, rfl⟩, -, hp⟩
          rw [hskip] at hp
          cases hp
          exact ⟨rfl, rfl⟩

end ClaimRun

/-! ### Interleavings -/

namespace NameWorld

variable {forest : Forest} {w : NameWorld}

/-- The invariant of a run. -/
def Ok (w : NameWorld) : Prop := ∀ i, (w.claims i).Ok w.cell

theorem ok_quiet (cell : NameCell) : (quiet cell).Ok := fun _ => trivial

theorem later_step (w : NameWorld) (a : Action) : w.cell.Later (w.step forest a).cell := by
  cases a with
  | read j verb => exact .refl _
  | put j =>
    rw [step]
    cases w.pending j with
    | none => exact .refl _
    | some p => exact w.cell.later_put _ _
  | claim i act => exact ClaimRun.later_next _ _ _ _

theorem Ok.step (h : w.Ok) (a : Action) : (w.step forest a).Ok := by
  intro k
  have hlater : w.cell.Later (w.step forest a).cell := later_step w a
  cases a with
  | read j verb => exact h k
  | put j => exact (h k).later hlater
  | claim i act =>
    by_cases hk : k = i
    · subst hk
      simp only [NameWorld.step, update_self]
      exact (h k).next act
    · simp only [NameWorld.step, update_of_ne hk]
      exact (h k).later hlater

/-- What is finalized after a step was before, or is by the step. -/
theorem finalized_step {a : Action} {k : ℕ} {parent : Pin} {replaced : NameRecord} :
    (w.step forest a).claims k = .finalized parent replaced ↔
      w.claims k = .finalized parent replaced ∨
        ∃ pin, a = .claim k .finalize ∧ w.claims k = .claimed pin replaced ∧
          forest.skipEmptyIntermediates pin = .ok parent := by
  cases a with
  | read j verb => simp [step]
  | put j => simp [step]
  | claim i act =>
    by_cases hk : k = i
    · subst hk
      simp only [step, update_self, ClaimRun.finalized_next, Action.claim.injEq, true_and]
      exact or_congr_right ⟨fun ⟨pin, hrun, hact, hskip⟩ => ⟨pin, hact, hrun, hskip⟩,
        fun ⟨pin, hact, hrun, hskip⟩ => ⟨pin, hrun, hact, hskip⟩⟩
    · simp [step, update_of_ne hk, Ne.symm hk]

/-- A step keeps the finalized claims right exactly if a run that finalizes carries a pair that joins
the one it replaced. -/
theorem continues_step_iff (hok : w.Ok) (h : w.Continues forest) (a : Action) :
    (w.step forest a).Continues forest ↔ w.CarriesReplaced forest a := by
  constructor
  · intro hafter
    unfold CarriesReplaced
    split
    · intro pin replaced hrun hskip
      cases hparent : forest.skipEmptyIntermediates pin with
      | error m => simp [hparent, Except.toBool] at hskip
      | ok parent =>
        have hfinal := finalized_step.mpr (.inr ⟨pin, rfl, hrun, hparent⟩)
        obtain ⟨-, snap, hsnap, hto⟩ := hafter _ _ _ hfinal
        exact ⟨snap, hsnap, (Forest.joins_iff hparent).mpr hto⟩
    · trivial
  · intro hcarries k parent replaced hfinal
    rcases finalized_step.mp hfinal with hbefore | ⟨pin, rfl, hrun, hparent⟩
    · exact h k parent replaced hbefore
    · have hreleased := hok k
      rw [hrun] at hreleased
      obtain ⟨snap, hsnap, hjoins⟩ := hcarries pin replaced hrun (by rw [hparent]; rfl)
      exact ⟨hreleased, snap, hsnap, (Forest.joins_iff hparent).mp hjoins⟩

/-- **A claim continues the volume it replaced exactly when it still carries it.** For any record and
any interleaving of claims, forced claims, starts, stops, releases and snapshot records on the name:
in every state each finalized claim is pinned to the volume and handoff snapshot of the released record
its PUT replaced, or to an ancestor that its empty forks lead to, if and only if each run that finalizes
carries a pair from which empty forks lead to a pin they also lead to from the record replaced. -/
theorem continues_iff (forest : Forest) (cell : NameCell) (as : List Action) :
    Run.Always (step forest) (Continues forest) (quiet cell) as ↔
      Run.Each (step forest) (CarriesReplaced forest) (quiet cell) as :=
  Run.always_iff_each (L := fun _ _ => True) (fun _ a hok _ => hok.step a)
    (fun _ a hok _ h => continues_step_iff hok h a) (ok_quiet cell)
    (by rintro i parent replaced ⟨⟩) (Run.each_of_forall (fun _ _ => trivial) _ _)

end NameWorld

/-! ### Claims whose two reads see one record -/

/-- The pair a record hands on. -/
def NameRecord.HandsOn (record : NameRecord) (pin : Pin) : Prop :=
  record.volUlid = pin.vol ∧ record.handoffSnapshot = some pin.snap

namespace ClaimRun

variable {forest : Forest} {cell : NameCell} {run : ClaimRun}

/-- After the first read of the record and before the last. -/
def betweenReads : ClaimRun → Bool
  | reclaiming .. | carrying _ => true
  | _ => false

/-- What a run has of the record is what the record says, until its PUT is bound to a version; from
then on it is what that version said. -/
def Current (cell : NameCell) : ClaimRun → Prop
  | reclaiming _ handoffSnapshot => ∀ r ∈ cell.record, r.handoffSnapshot = handoffSnapshot
  | carrying pin => ∀ r ∈ cell.record, r.HandsOn pin
  | claiming pin version _ => version ≤ cell.version ∧
      (version = cell.version → ∀ r ∈ cell.record, r.HandsOn pin)
  | claimed pin replaced => replaced.HandsOn pin
  | _ => True

/-- A PUT by another run leaves a run current, unless it lands between the run's reads. -/
theorem Current.later {after : NameCell} (h : run.Current cell) (hlater : cell.Later after)
    (hreads : run.betweenReads = true → after.version = cell.version) : run.Current after := by
  cases run with
  | reclaiming vol handoff => exact fun r hr => h r (hlater.2 (hreads rfl) ▸ hr)
  | carrying pin => exact fun r hr => h r (hlater.2 (hreads rfl) ▸ hr)
  | claiming pin version record =>
    refine ⟨h.1.trans hlater.1, fun hv r hr => ?_⟩
    have hsame : after.version = cell.version := le_antisymm (hv ▸ h.1) hlater.1
    exact h.2 (hv.trans hsame) r (hlater.2 hsame ▸ hr)
  | _ => exact h

theorem current_mustClaimFresh {vol : Ulid} {handoff : Option Ulid}
    (h : ∀ r ∈ cell.record, r.volUlid = vol ∧ r.handoffSnapshot = handoff) :
    (mustClaimFresh vol handoff).Current cell := by
  cases handoff with
  | none => trivial
  | some snap => exact h

theorem current_claimVolumeBucketOp (localVolUlid : Option Ulid) :
    (claimVolumeBucketOp localVolUlid cell.record).Current cell := by
  cases hrecord : cell.record with
  | none => trivial
  | some record =>
    have honly : ∀ r ∈ cell.record, r = record := by simp [hrecord]
    rw [claimVolumeBucketOp]
    split
    · split_ifs
      · exact current_mustClaimFresh fun r hr => honly r hr ▸ ⟨rfl, rfl⟩
      · exact fun r hr => honly r hr ▸ rfl
    all_goals trivial

/-- On a mismatch the volume is that of the read, and the snapshot of the first read is still good. -/
theorem current_reclaimRead {vol : Ulid} {handoff : Option Ulid} (caller : Caller)
    (h : (reclaiming vol handoff).Current cell) :
    (reclaimRead caller vol handoff cell).Current cell := by
  rw [reclaimRead]
  split
  next => trivial
  next hmismatch =>
    refine current_mustClaimFresh fun r hr => ⟨?_, h r hr⟩
    rw [hr, markReclaimedLocal] at hmismatch
    split at hmismatch
    · split_ifs at hmismatch <;> cases hmismatch
      rfl
    all_goals cases hmismatch
  next => trivial

theorem Current.next (h : run.Current cell) (act : ClaimAct) :
    (run.next forest cell act).2.Current (run.next forest cell act).1 := by
  cases run with
  | idle =>
    cases act with
    | look localVolUlid => exact current_claimVolumeBucketOp localVolUlid
    | _ => trivial
  | reclaiming vol handoff =>
    cases act with
    | reclaimRead caller => exact current_reclaimRead caller h
    | fail => trivial
    | _ => exact h
  | carrying pin =>
    cases act with
    | claimRead caller newVolUlid =>
      simp only [ClaimRun.next, claimRead]
      split
      · exact ⟨le_rfl, fun _ => h⟩
      · trivial
    | fail => trivial
    | _ => exact h
  | claiming pin version record =>
    cases act with
    | claimPut =>
      simp only [ClaimRun.next, claimPut]
      split
      next replaced hreplaced =>
        split_ifs with hv
        · exact h.2 hv replaced hreplaced
        · trivial
      next => trivial
    | fail => trivial
    | _ => exact h
  | claimed pin replaced =>
    cases act with
    | finalize =>
      simp only [ClaimRun.next, finalize]
      split <;> trivial
    | fail => trivial
    | _ => exact h
  | reclaimPut | ended => cases act <;> trivial
  | finalized parent replaced => trivial

end ClaimRun

namespace NameWorld

variable {forest : Forest} {w : NameWorld}

/-- A step by which the record changes comes when no claim is between its reads. -/
def Undisturbed (forest : Forest) (w : NameWorld) (a : Action) : Prop :=
  (w.step forest a).cell.version = w.cell.version ∨ ∀ i, (w.claims i).betweenReads = false

theorem current_step {a : Action} (h : ∀ i, (w.claims i).Current w.cell)
    (ha : w.Undisturbed forest a) (k : ℕ) :
    ((w.step forest a).claims k).Current (w.step forest a).cell := by
  have hother : (w.claims k).Current (w.step forest a).cell :=
    (h k).later (later_step w a) fun hreads => ha.resolve_right fun hno => by
      rw [hno k] at hreads
      cases hreads
  cases a with
  | read j verb => exact hother
  | put j => exact hother
  | claim i act =>
    by_cases hk : k = i
    · subst hk
      simp only [NameWorld.step, update_self]
      exact (h k).next act
    · simp only [NameWorld.step, update_of_ne hk] at hother ⊢
      exact hother

/-- **A claim continues the volume it replaced when its reads are undisturbed.** Along every
interleaving of claims, in-place reclaims, forced claims, starts, stops, releases and snapshot records
in which no PUT lands while a claim is between its reads of the record, every finalized claim is pinned
to the pair of the record it replaced, or to an ancestor that its empty forks lead to. PUTs that land
after the second read, and PUTs that are refused, may come at any time. -/
theorem continues_of_undisturbed {cell : NameCell} {as : List Action}
    (h : Run.Each (step forest) (Undisturbed forest) (quiet cell) as) :
    Run.Always (step forest) (Continues forest) (quiet cell) as := by
  refine Run.Always.mono (fun _ h => h.2.2) (Run.always_of_each
    (P := fun w => w.Ok ∧ (∀ i, (w.claims i).Current w.cell) ∧ w.Continues forest)
    (fun w a ⟨hok, hcur, hcont⟩ ha => ⟨hok.step a, current_step hcur ha, ?_⟩)
    ⟨ok_quiet cell, fun _ => trivial, by rintro i parent replaced ⟨⟩⟩ h)
  refine (continues_step_iff hok hcont a).mpr ?_
  unfold CarriesReplaced
  split
  next i =>
    intro pin replaced hrun _
    have hpair := hcur i
    rw [hrun] at hpair
    refine ⟨pin.snap, hpair.2, pin, .refl _, ?_⟩
    rw [hpair.1]
    exact .refl _
  next => trivial

namespace StalePair

/-- A root that was released without a write. -/
def root (p : Pin) : ReleasedFork where
  vol := p.vol
  clock _ := 0
  mints := []
  fits := ReleasedFork.BehindParent.unwritten.fits
  snapshot := p.snap
  le_snapshot := nofun
  read := .ok ()

/-- A fork of the root's snapshot 10, with a block of its own, released at 20. -/
def written : ReleasedFork where
  vol := 2
  clock _ := 20
  mints := [some ([], [ReleasedFork.BehindParent.entry 1 0])]
  fits := ReleasedFork.BehindParent.parent.fits
  snapshot := 20
  le_snapshot := by decide
  read := .ok ()

/-- Volume 2 is the written fork, any other an unwritten root. -/
def bucket : Forest where
  fork p := if p = ⟨2, 20⟩ then written else root p
  ancestors p := if p = ⟨2, 20⟩ then [root ⟨1, 10⟩] else []
  pin_fork p := by
    split_ifs with h
    · rw [h]
      rfl
    · rfl
  ancestors_eq {p parent rest} h := by
    split_ifs at h
    cases h
    exact ⟨rfl, rfl⟩

/-- The root is released at snapshot 10. -/
def released : NameRecord where
  volUlid := 1
  size := 4096
  coordinatorId := none
  state := .released
  parent := none
  claimedAt := none
  hostname := none
  handoffSnapshot := some 10
  latestSnapshot := some 10

/-- The claimer who is overtaken. -/
def slow : Caller := ⟨['a'], none, []⟩

/-- The claimer who overtakes. -/
def fast : Caller := ⟨['b'], none, []⟩

/-- The slow coordinator reads the record. The fast one claims the name, starts the volume, stops it
and releases it. The slow one goes on. -/
def actions : List Action :=
  [.claim 0 (.look none), .claim 1 (.look none), .claim 1 (.claimRead fast 2), .claim 1 .claimPut,
    .claim 1 .finalize, .read 1 (.start fast), .put 1, .read 1 (.stop fast), .put 1,
    .read 1 (.release fast.coordId 20), .put 1, .claim 0 (.claimRead slow 3), .claim 0 .claimPut,
    .claim 0 .finalize]

/-- The record the fast coordinator leaves. -/
def handedOn : NameRecord :=
  { released with volUlid := 2, parent := some ⟨1, 10⟩, handoffSnapshot := some 20,
                  latestSnapshot := some 20 }

end StalePair

open StalePair in
/-- The fast coordinator claims and releases the name first. The slow one then reads the record; a
snapshot is about to be recorded, and that PUT comes after the slow one's and is refused. -/
theorem continues_after_release : Run.Always (step StalePair.bucket) (Continues StalePair.bucket)
    (quiet ⟨0, some released⟩) [.claim 1 (.look none), .claim 1 (.claimRead fast 2),
      .claim 1 .claimPut, .claim 1 .finalize, .read 1 (.start fast), .put 1, .read 1 (.stop fast),
      .put 1, .read 1 (.release fast.coordId 20), .put 1, .claim 0 (.look none),
      .read 2 (.recordLatestSnapshot 2 20), .claim 0 (.claimRead slow 3), .claim 0 .claimPut, .put 2,
      .claim 0 .finalize] := by
  refine continues_of_undisturbed ⟨.inl rfl, .inl rfl, .inr ?_, .inl rfl, .inl rfl, .inr ?_, .inl rfl,
    .inr ?_, .inl rfl, .inr ?_, .inl rfl, .inl rfl, .inl rfl, .inr ?_, .inl rfl, .inl rfl, trivial⟩
  all_goals
    intro i
    match i with
    | 0 | 1 => rfl
    | i + 2 => rfl

open StalePair in
/-- **A claim drops what another coordinator has written.** The record replaced names volume 2 at
snapshot 20, which has a block of its own, and the new fork is pinned to volume 1 at snapshot 10. -/
theorem stale_pair_finalizes :
    (actions.foldl (step StalePair.bucket) (quiet ⟨0, some released⟩)).claims 0 =
        .finalized ⟨1, 10⟩ handedOn ∧
      written.CarriesClaim ∧ ¬ handedOn.ContinuedBy StalePair.bucket ⟨1, 10⟩ := by
  refine ⟨rfl, ⟨_, List.mem_singleton_self _, 0, rfl⟩, ?_⟩
  rintro ⟨-, snap, hsnap, hto⟩
  obtain rfl := Option.some.inj hsnap
  have hskip : StalePair.bucket.skipEmptyIntermediates ⟨1, 10⟩ = .ok ⟨2, 20⟩ :=
    Forest.skip_of_skipsTo hto rfl
  cases hskip

end NameWorld

end Elide
