import Elide.Lib.Run
import Elide.Segment
import Mathlib.Data.Finset.Insert

/-!
# The sync gate

A FLUSH or a FUA write asks for everything published up to its generation to be durable. The gate
lets one request at a time run a round, which reads the generation it starts at, takes the handles of
every WAL that may hold bytes outside a committed segment, and syncs them one after another. A
request whose generation the running round covers parks on it, one it does not cover parks until the
round is over and tries again, and one a completed round covers returns at once. All of them return
the outcome of the round that completed last.

Requests run on threads of their own, the rounds outside the gate's lock and mostly outside the
volume mutex, and the guest writes meanwhile. A state here is what all of them see between two steps
under a lock, and a step is one section under the gate's lock, one section under the volume mutex or
one system call.

A gate starts as if a round had completed at generation 0. A volume opened over the WAL of an earlier
process starts there too, with the recovered records published and the file not synced: what the
earlier process left in the page cache is read back, and a FLUSH before the first write returns at
once.

## Main results

* `SyncState.Ok.step`: what the gate promises is kept by every step.
* `SyncState.flush_durable_iff`: a request at a generation a write was published at, when it returns
  Ok, leaves every record published at or below it durable or in a committed segment, and if a round
  served it, one that started at or after its generation has succeeded; a request at generation 0
  does so exactly when the recovered records are durable from the start.
* `SyncState.flush_skips_recovered`: a FLUSH of a reopened volume that syncs nothing.
-/

namespace Elide

open List Function Nat

/-- A WAL file as a sync sees it. -/
structure LogFile where
  /-- The generation each record is published at. -/
  records : List ℕ
  /-- How many of the records are durable. -/
  durable : ℕ

/-- What a round has done so far. -/
inductive SyncRound where
  /-- Its start generation is read. -/
  | begun
  /-- The files left to sync. -/
  | syncing (handles : List Ulid)
  | failed (error : String)

/-- Where a request stands in `sync_through`. -/
inductive SyncPhase where
  | idle
  | arrived
  /-- Parked on a round that covers it. -/
  | joined (woken : Bool)
  /-- Parked on a round that does not. -/
  | waiting (woken : Bool)
  | leading (start : ℕ) (round : SyncRound)
  /-- Returned, with the error if there was one. -/
  | returned (failure : Option String)

/-- A FLUSH in progress, with the generation it has to see synced. -/
structure SyncRequest where
  generation : ℕ
  phase : SyncPhase
  /-- It led or joined a round. -/
  served : Bool

/-- The request is running a round. -/
def SyncRequest.Leads (r : SyncRequest) : Prop := ∃ start round, r.phase = .leading start round

/-- What `notify_all` makes of a parked request. -/
def SyncRequest.notified (r : SyncRequest) : SyncRequest :=
  match r.phase with
  | .joined _ => { r with phase := .joined true }
  | .waiting _ => { r with phase := .waiting true }
  | _ => r

/-- What the gate keeps under its lock. -/
structure GateState where
  /-- Start generation of the last completed round. -/
  completed : ℕ
  /-- The failure of the round that set `completed`. -/
  failure : Option String
  /-- Start generation of the round in flight. -/
  running : Option ℕ

/-- The WALs of a volume, its gate and the requests at it. -/
structure SyncState where
  flushGen : ℕ
  files : Ulid → LogFile
  /-- The ULID of the next WAL. -/
  mint : Ulid
  wal : Option Ulid
  rotatedWals : List Ulid
  /-- A write holds the volume mutex. -/
  locked : Bool
  /-- The WALs whose epochs are in a committed segment. -/
  committed : Finset Ulid
  gate : GateState
  requests : ℕ → SyncRequest
  /-- Start generations of the rounds that succeeded. -/
  succeeded : List ℕ

/-- The WAL that `recover_wal` reopens: how many records the scan finds, and how many of them the
earlier process had synced. -/
structure RecoveredWal where
  records : ℕ
  durable : ℕ

namespace SyncState

/-- What `spawn` makes of an opened volume: what was recovered is published at generation 0. The older
WALs of an earlier process are in committed segments by now. -/
def init (recovered : Option RecoveredWal) : SyncState where
  flushGen := 0
  files u :=
    match recovered with
    | some w => if u = 0 then ⟨replicate w.records 0, w.durable⟩ else ⟨[], 0⟩
    | none => ⟨[], 0⟩
  mint := 1
  wal := recovered.map fun _ => 0
  rotatedWals := []
  locked := false
  committed := ∅
  gate := ⟨0, none, none⟩
  requests _ := ⟨0, .idle, false⟩
  succeeded := []

/-! ## The volume -/

variable (s : SyncState)

/-- A write takes the mutex. -/
def lock : SyncState := if s.locked then s else { s with locked := true }

/-- `ensure_wal_open`: the open WAL, or a fresh one. -/
def ensureWalOpen : Ulid × SyncState :=
  match s.wal with
  | some u => (u, s)
  | none => (s.mint, { s with wal := some s.mint, mint := s.mint + 1 })

/-- A record goes to the open WAL, to be published with the write that holds the mutex. -/
def append : SyncState :=
  if s.locked then
    let (u, s) := s.ensureWalOpen
    let file := s.files u
    { s with
      files := update s.files u { file with records := file.records ++ [s.flushGen + 1] } }
  else s

/-- `publish_snapshot`, and the mutex is released. -/
def publish : SyncState :=
  if s.locked then { s with flushGen := s.flushGen + 1, locked := false } else s

/-- A write that fails releases the mutex without publishing. -/
def abandon : SyncState := { s with locked := false }

/-- `rotate_wal_into_promote`: an open WAL with records becomes a promote's, an empty one goes. -/
def rotate : SyncState :=
  match s.wal with
  | none => s
  | some u =>
    if s.locked then s
    else if (s.files u).records.isEmpty then { s with wal := none }
    else { s with wal := none, rotatedWals := s.rotatedWals ++ [u] }

/-- The worker commits the segments of a rotated WAL. A promote that fails changes nothing here: its
WAL stays among the rotated ones. -/
def commit (u : Ulid) : SyncState :=
  if u ∈ s.rotatedWals then { s with committed := insert u s.committed } else s

/-- `swap_promote` of a committed epoch forgets its WAL. -/
def swapPromote (u : Ulid) : SyncState :=
  if !s.locked ∧ u ∈ s.committed then
    { s with rotatedWals := s.rotatedWals.filter fun v => decide (v ≠ u) }
  else s

/-- `sync_handles`. -/
def syncHandles : List Ulid := s.wal.toList ++ s.rotatedWals

/-! ## The gate -/

variable (i : ℕ)

/-- Replace the request `i`. -/
def setRequest (r : SyncRequest) : SyncState :=
  { s with requests := update s.requests i r }

/-- A FLUSH or a FUA write at a generation that has been published. -/
def request (i generation : ℕ) : SyncState :=
  match (s.requests i).phase with
  | .idle =>
    if generation ≤ s.flushGen then s.setRequest i ⟨generation, .arrived, false⟩ else s
  | _ => s

/-- One turn of the loop: park on the running round, or lead one. -/
def turn : SyncState :=
  let r := s.requests i
  match s.gate.running with
  | some start =>
    if r.generation ≤ start then s.setRequest i { r with phase := .joined false, served := true }
    else s.setRequest i { r with phase := .waiting false }
  | none =>
    { s.setRequest i { r with phase := .leading s.flushGen .begun, served := true } with
      gate := { s.gate with running := some s.flushGen } }

/-- A request that a completed round covers returns its outcome, any other one takes a turn. -/
def returnOrTurn : SyncState :=
  if (s.requests i).generation ≤ s.gate.completed then
    s.setRequest i { s.requests i with phase := .returned s.gate.failure }
  else s.turn i

/-- The request takes the gate's lock for the first time. -/
def enter : SyncState :=
  match (s.requests i).phase with
  | .arrived => s.returnOrTurn i
  | _ => s

/-- A request that was notified has the gate's lock again. -/
def wake : SyncState :=
  match (s.requests i).phase with
  | .joined true => s.setRequest i { s.requests i with phase := .returned s.gate.failure }
  | .waiting true => s.returnOrTurn i
  | _ => s

/-- The leader takes the handles under the volume mutex. -/
def takeHandles : SyncState :=
  match (s.requests i).phase with
  | .leading start .begun =>
    if s.locked then s
    else s.setRequest i
      { s.requests i with phase := .leading start (.syncing s.syncHandles) }
  | _ => s

/-- The leader syncs the next file: all its records are durable, or the round fails. -/
def syncData (error : Option String) : SyncState :=
  match (s.requests i).phase with
  | .leading start (.syncing (u :: rest)) =>
    match error with
    | none =>
      { s.setRequest i { s.requests i with phase := .leading start (.syncing rest) } with
        files := update s.files u ⟨(s.files u).records, (s.files u).records.length⟩ }
    | some e => s.setRequest i { s.requests i with phase := .leading start (.failed e) }
  | _ => s

/-- The round is over: its outcome is the gate's and the leader's. -/
def complete (i start : ℕ) (failure : Option String) : SyncState :=
  { s with
    gate := ⟨start, failure, none⟩
    requests := update (fun j => (s.requests j).notified) i
      { s.requests i with phase := .returned failure }
    succeeded := if failure.isNone then start :: s.succeeded else s.succeeded }

/-- The leader takes the gate's lock after its round. -/
def finish : SyncState :=
  match (s.requests i).phase with
  | .leading start (.syncing []) => s.complete i start none
  | .leading start (.failed e) => s.complete i start (some e)
  | _ => s

end SyncState

/-- One step of the guest, the actor, the worker or a request. -/
inductive SyncAction where
  | lock
  | append
  | publish
  | abandon
  | rotate
  | commit (u : Ulid)
  | swapPromote (u : Ulid)
  | request (i generation : ℕ)
  | enter (i : ℕ)
  | wake (i : ℕ)
  | takeHandles (i : ℕ)
  | syncData (i : ℕ) (error : Option String)
  | finish (i : ℕ)

/-- One action. -/
def SyncState.step (s : SyncState) : SyncAction → SyncState
  | .lock => s.lock
  | .append => s.append
  | .publish => s.publish
  | .abandon => s.abandon
  | .rotate => s.rotate
  | .commit u => s.commit u
  | .swapPromote u => s.swapPromote u
  | .request i generation => s.request i generation
  | .enter i => s.enter i
  | .wake i => s.wake i
  | .takeHandles i => s.takeHandles i
  | .syncData i error => s.syncData i error
  | .finish i => s.finish i

namespace SyncState

/-! ## What is durable -/

variable (s : SyncState)

/-- The `k`-th record of the WAL `u` survives a crash. -/
def Safe (u : Ulid) (k : ℕ) : Prop := k < (s.files u).durable ∨ u ∈ s.committed

/-- Every record published at or below `g` survives a crash. -/
def Covered (g : ℕ) : Prop :=
  ∀ u k gen, (s.files u).records[k]? = some gen → gen ≤ g → s.Safe u k

/-- What a step of the volume or a sync does to the records: those published stay, and what is
durable stays durable. -/
structure Later (s s' : SyncState) : Prop where
  gen : s.flushGen ≤ s'.flushGen
  old : ∀ (u : Ulid) (k gen : ℕ), (s'.files u).records[k]? = some gen →
    (s.files u).records[k]? = some gen ∨ s.flushGen < gen
  safe : ∀ (u : Ulid) (k gen : ℕ), (s.files u).records[k]? = some gen → s.Safe u k → s'.Safe u k

theorem Later.of_eq {s s' : SyncState} (hgen : s'.flushGen = s.flushGen)
    (hfiles : s'.files = s.files) (hcommitted : s'.committed = s.committed) : s.Later s' where
  gen := hgen.ge
  old u k gen h := .inl (hfiles ▸ h)
  safe u k _ _ h := by rwa [Safe, hfiles, hcommitted]

theorem Later.covered {s s' : SyncState} (h : s.Later s') {g : ℕ} (hg : g ≤ s.flushGen)
    (hc : s.Covered g) : s'.Covered g := by
  intro u k gen hrec hle
  rcases h.old u k gen hrec with hrec | hnew
  · exact h.safe u k gen hrec (hc u k gen hrec hle)
  · omega

/-! ## The invariant -/

/-- What a round guarantees: the records it has to cover are safe or in a file it has yet to sync. -/
def RoundOk (start : ℕ) : SyncRound → Prop
  | .begun | .failed _ => True
  | .syncing handles => ∀ u k gen, (s.files u).records[k]? = some gen → gen ≤ start →
      s.Safe u k ∨ u ∈ handles

/-- What holds of a request in each phase. Nothing is known of a request at generation 0. -/
def PhaseOk (r : SyncRequest) : Prop :=
  match r.phase with
  | .idle | .arrived | .waiting _ | .returned (some _) => True
  | .joined false => ∃ start, s.gate.running = some start ∧ r.generation ≤ start
  | .joined true => r.generation ≤ s.gate.completed
  | .leading start round =>
    s.gate.running = some start ∧ r.generation ≤ start ∧ s.RoundOk start round
  | .returned none =>
    (0 < r.generation → s.Covered r.generation) ∧
      (r.served = true → ∃ start ∈ s.succeeded, r.generation ≤ start)

/-- The WALs: a record is in the sync set or committed, and only the open WAL grows. -/
structure WalsOk (s : SyncState) : Prop where
  held : ∀ u, (s.files u).records ≠ [] → u ∈ s.syncHandles ∨ u ∈ s.committed
  unborn : ∀ u, s.mint ≤ u → (s.files u).records = [] ∧ u ∉ s.committed
  minted : ∀ u ∈ s.syncHandles, u < s.mint
  wal : ∀ u, s.wal = some u → u ∉ s.rotatedWals ∧ u ∉ s.committed

/-- The gate and the requests at it. `clean` says whether the recovered records were durable. -/
structure GateOk (s : SyncState) (clean : Prop) : Prop where
  recovered : clean → s.Covered 0
  completed : s.gate.completed ≤ s.flushGen
  running : ∀ start, s.gate.running = some start → s.gate.completed ≤ start ∧ start ≤ s.flushGen
  succeeded : ∀ start ∈ s.succeeded, start ≤ s.flushGen ∧ s.Covered start
  last : s.gate.failure = none → s.gate.completed = 0 ∨ s.gate.completed ∈ s.succeeded
  bounded : ∀ i, (s.requests i).generation ≤ s.flushGen
  served : ∀ i, (s.requests i).served = true → 0 < (s.requests i).generation
  phases : ∀ i, s.PhaseOk (s.requests i)
  leader : ∀ i j, (s.requests i).Leads → (s.requests j).Leads → i = j

/-- The invariant of a run. -/
structure Ok (s : SyncState) (clean : Prop) : Prop where
  wals : s.WalsOk
  gate : s.GateOk clean

variable {clean : Prop}

/-! ## Steps of the volume -/

theorem WalsOk.of_records {s s' : SyncState} (h : s.WalsOk)
    (hrecords : ∀ u, (s'.files u).records = (s.files u).records) (hmint : s'.mint = s.mint)
    (hwal : s'.wal = s.wal) (hrotated : s'.rotatedWals = s.rotatedWals)
    (hcommitted : s'.committed = s.committed) : s'.WalsOk := by
  have hhandles : s'.syncHandles = s.syncHandles := by rw [syncHandles, syncHandles, hwal, hrotated]
  obtain ⟨held, unborn, minted, wal⟩ := h
  refine ⟨fun u => ?_, fun u => ?_, ?_, fun u => ?_⟩
  all_goals simp only [hrecords, hhandles, hmint, hwal, hrotated, hcommitted]
  exacts [held u, unborn u, minted, wal u]

theorem RoundOk.later {s s' : SyncState} (h : s.Later s') {start : ℕ} (hstart : start ≤ s.flushGen)
    {round : SyncRound} (hr : s.RoundOk start round) : s'.RoundOk start round := by
  cases round with
  | begun => trivial
  | failed e => trivial
  | syncing handles =>
    intro u k gen hrec hle
    rcases h.old u k gen hrec with hrec | hnew
    · exact (hr u k gen hrec hle).imp_left (h.safe u k gen hrec)
    · omega

/-- What the gate knows it goes on knowing while the volume works. -/
theorem GateOk.later {s s' : SyncState} (h : s.GateOk clean) (hlater : s.Later s')
    (hgate : s'.gate = s.gate) (hrequests : s'.requests = s.requests)
    (hsucceeded : s'.succeeded = s.succeeded) : s'.GateOk clean := by
  obtain ⟨gen, files, mint, wal, rotated, locked, committed, gate, requests, succeeded⟩ := s'
  subst hgate hrequests hsucceeded
  refine ⟨fun hclean => hlater.covered (Nat.zero_le _) (h.recovered hclean),
    h.completed.trans hlater.gen, fun start hrun => ?_, fun start hstart => ?_, h.last,
    fun i => (h.bounded i).trans hlater.gen, h.served, fun i => ?_, h.leader⟩
  · exact ⟨(h.running start hrun).1, (h.running start hrun).2.trans hlater.gen⟩
  · obtain ⟨hle, hcov⟩ := h.succeeded start hstart
    exact ⟨hle.trans hlater.gen, hlater.covered hle hcov⟩
  · have hphase := h.phases i
    rw [PhaseOk] at hphase ⊢
    dsimp only
    split at hphase
    all_goals try trivial
    · obtain ⟨hrun, hle, hround⟩ := hphase
      exact ⟨hrun, hle, hround.later hlater (h.running _ hrun).2⟩
    · exact ⟨fun hpos => hlater.covered (h.bounded i) (hphase.1 hpos), hphase.2⟩

namespace Ok

variable {s : SyncState} (h : s.Ok clean)
include h

/-- A step that leaves the WALs and the gate alone. -/
theorem of_eq {s' : SyncState} (hfiles : s'.files = s.files) (hmint : s'.mint = s.mint)
    (hwal : s'.wal = s.wal) (hrotated : s'.rotatedWals = s.rotatedWals)
    (hcommitted : s'.committed = s.committed) (hgen : s.flushGen ≤ s'.flushGen)
    (hgate : s'.gate = s.gate) (hrequests : s'.requests = s.requests)
    (hsucceeded : s'.succeeded = s.succeeded) : s'.Ok clean where
  wals := h.wals.of_records (fun u => by rw [hfiles]) hmint hwal hrotated hcommitted
  gate := by
    refine h.gate.later ⟨hgen, fun u k gen hrec => .inl (hfiles ▸ hrec), fun u k _ _ hsafe => ?_⟩
      hgate hrequests hsucceeded
    rwa [Safe, hfiles, hcommitted]

theorem lock : s.lock.Ok clean := by
  rw [SyncState.lock]
  split_ifs
  · exact h
  · exact h.of_eq rfl rfl rfl rfl rfl le_rfl rfl rfl rfl

theorem publish : s.publish.Ok clean := by
  rw [SyncState.publish]
  split_ifs
  · exact h.of_eq rfl rfl rfl rfl rfl (le_succ _) rfl rfl rfl
  · exact h

theorem abandon : s.abandon.Ok clean := h.of_eq rfl rfl rfl rfl rfl le_rfl rfl rfl rfl

/-- A WAL is open, and its ULID is that of no WAL that was rotated or committed. -/
theorem ensureWalOpen : (s.ensureWalOpen).2.Ok clean ∧
    (s.ensureWalOpen).2.wal = some s.ensureWalOpen.1 ∧
    (s.ensureWalOpen).2.flushGen = s.flushGen := by
  rw [SyncState.ensureWalOpen]
  split
  case h_1 u hu => exact ⟨h, hu, rfl⟩
  case h_2 hnone =>
    refine ⟨⟨⟨fun u hu => ?_, fun u hu => ?_, fun u hu => ?_, fun u hu => ?_⟩,
      h.gate.later (.of_eq rfl rfl rfl) rfl rfl rfl⟩, rfl, rfl⟩
    · refine (h.wals.held u hu).imp_left fun hmem => ?_
      rw [syncHandles, hnone] at hmem
      exact mem_append_right _ hmem
    · exact h.wals.unborn u (le_of_succ_le hu)
    · rcases mem_append.mp hu with hu | hu
      · rw [mem_singleton.mp hu]
        exact lt_succ_self _
      · exact lt_succ_of_lt (h.wals.minted u (mem_append_right _ hu))
    · obtain rfl : s.mint = u := Option.some.inj hu
      refine ⟨fun hmem => ?_, (h.wals.unborn _ le_rfl).2⟩
      exact absurd (h.wals.minted _ (mem_append_right _ hmem)) (lt_irrefl _)

theorem append : s.append.Ok clean := by
  rw [SyncState.append]
  split_ifs
  swap
  · exact h
  obtain ⟨hopen, hwal, -⟩ := h.ensureWalOpen
  generalize s.ensureWalOpen = p at hopen hwal
  obtain ⟨u, s⟩ := p
  have hrecords : ∀ v, (update s.files u { s.files u with
      records := (s.files u).records ++ [s.flushGen + 1] } v).records =
      if v = u then (s.files u).records ++ [s.flushGen + 1] else (s.files v).records := by
    intro v
    by_cases hv : v = u
    · rw [hv, update_self, if_pos rfl]
    · rw [update_of_ne hv, if_neg hv]
  have hmem : u ∈ s.syncHandles := by
    rw [syncHandles, show s.wal = some u from hwal]
    exact mem_append_left _ (mem_singleton_self _)
  refine ⟨⟨fun v hv => ?_, fun v hv => ?_, hopen.wals.minted, hopen.wals.wal⟩,
    hopen.gate.later ⟨le_rfl, fun v k gen hrec => ?_, fun v k _ _ hsafe => ?_⟩ rfl rfl rfl⟩
  · rw [hrecords] at hv
    split_ifs at hv with hvu
    · exact .inl (hvu ▸ hmem)
    · exact hopen.wals.held v hv
  · have hne : v ≠ u := by
      rintro rfl
      exact absurd (hopen.wals.minted v hmem) (not_lt.mpr hv)
    rw [hrecords, if_neg hne]
    exact hopen.wals.unborn v hv
  · -- the record that was added is of the generation to come
    rw [hrecords] at hrec
    split_ifs at hrec with hvu
    · subst hvu
      rcases lt_or_ge k (s.files v).records.length with hk | hk
      · left
        rwa [List.getElem?_append_left hk] at hrec
      · right
        have hgen := mem_of_getElem? ((List.getElem?_append_right hk).symm.trans hrec)
        rw [mem_singleton.mp hgen]
        exact lt_succ_self _
    · exact .inl hrec
  · rcases hsafe with hdur | hcom
    · left
      show k < (update s.files u _ v).durable
      by_cases hv : v = u
      · subst hv
        rw [update_self]
        exact hdur
      · rw [update_of_ne hv]
        exact hdur
    · exact .inr hcom

theorem rotate : s.rotate.Ok clean := by
  rw [SyncState.rotate]
  split
  · exact h
  case h_2 u hu =>
    split_ifs with hlocked hempty
    · exact h
    · -- an empty WAL goes
      refine ⟨⟨fun v hv => ?_, h.wals.unborn, fun v hv => ?_, fun v => nofun⟩,
        h.gate.later (.of_eq rfl rfl rfl) rfl rfl rfl⟩
      · refine (h.wals.held v hv).imp_left fun hmem => ?_
        rw [syncHandles, hu] at hmem
        rcases mem_append.mp hmem with hmem | hmem
        · rw [mem_singleton.mp hmem] at hv
          exact absurd (List.isEmpty_iff.mp hempty) hv
        · exact hmem
      · exact h.wals.minted v (mem_append_right _ hv)
    · have hhandles : ∀ v, v ∈ s.syncHandles ↔ v ∈ s.rotatedWals ++ [u] := by
        rw [syncHandles, hu]
        simp [or_comm]
      refine ⟨⟨fun v hv => ?_, h.wals.unborn, fun v hv => ?_, fun v => nofun⟩,
        h.gate.later (.of_eq rfl rfl rfl) rfl rfl rfl⟩
      · exact (h.wals.held v hv).imp_left (hhandles v).mp
      · exact h.wals.minted v ((hhandles v).mpr hv)

theorem commit (u : Ulid) : (s.commit u).Ok clean := by
  rw [SyncState.commit]
  split_ifs with hu
  swap
  · exact h
  refine ⟨⟨fun v hv => ?_, fun v hv => ?_, h.wals.minted, fun v hv => ?_⟩,
    h.gate.later ⟨le_rfl, fun v k gen hrec => .inl hrec, fun v k _ _ hsafe => ?_⟩ rfl rfl rfl⟩
  · exact (h.wals.held v hv).imp_right (Finset.mem_insert_of_mem)
  · refine ⟨(h.wals.unborn v hv).1, fun hmem => ?_⟩
    rcases Finset.mem_insert.mp hmem with rfl | hmem
    · exact absurd (h.wals.minted v (mem_append_right _ hu)) (not_lt.mpr hv)
    · exact (h.wals.unborn v hv).2 hmem
  · obtain ⟨hrot, hcom⟩ := h.wals.wal v hv
    refine ⟨hrot, fun hmem => ?_⟩
    rcases Finset.mem_insert.mp hmem with rfl | hmem
    · exact hrot hu
    · exact hcom hmem
  · exact hsafe.imp_right Finset.mem_insert_of_mem

theorem swapPromote (u : Ulid) : (s.swapPromote u).Ok clean := by
  rw [SyncState.swapPromote]
  split_ifs with hu
  swap
  · exact h
  refine ⟨⟨fun v hv => ?_, h.wals.unborn, fun v hv => ?_, fun v hv => ?_⟩,
    h.gate.later (.of_eq rfl rfl rfl) rfl rfl rfl⟩
  · rcases h.wals.held v hv with hmem | hcom
    · by_cases hvu : v = u
      · exact .inr (hvu ▸ hu.2)
      · left
        rcases mem_append.mp hmem with hmem | hmem
        · exact mem_append_left _ hmem
        · exact mem_append_right _ (mem_filter.mpr ⟨hmem, by simpa using hvu⟩)
    · exact .inr hcom
  · refine h.wals.minted v ?_
    rcases mem_append.mp hv with hv | hv
    · exact mem_append_left _ hv
    · exact mem_append_right _ (mem_filter.mp hv).1
  · obtain ⟨hrot, hcom⟩ := h.wals.wal v hv
    exact ⟨fun hmem => hrot (mem_filter.mp hmem).1, hcom⟩

/-! ## Steps of the requests -/

variable (i : ℕ)

/-- A request moves to a phase that holds of it, without becoming a second leader. -/
theorem setRequest {r : SyncRequest} (hbound : r.generation ≤ s.flushGen)
    (hserved : r.served = true → 0 < r.generation) (hphase : s.PhaseOk r)
    (hleads : r.Leads → (s.requests i).Leads) : (s.setRequest i r).Ok clean where
  wals := h.wals.of_records (fun _ => rfl) rfl rfl rfl rfl
  gate := by
    have hback : ∀ j, ((s.setRequest i r).requests j).Leads → (s.requests j).Leads := by
      intro j hj
      change (update s.requests i r j).Leads at hj
      by_cases hji : j = i
      · subst hji
        rw [update_self] at hj
        exact hleads hj
      · rwa [update_of_ne hji] at hj
    exact ⟨h.gate.recovered, h.gate.completed, h.gate.running, h.gate.succeeded, h.gate.last,
      (forall_update_iff s.requests fun _ r => r.generation ≤ s.flushGen).mpr
        ⟨hbound, fun j _ => h.gate.bounded j⟩,
      (forall_update_iff s.requests fun _ r => r.served = true → 0 < r.generation).mpr
        ⟨hserved, fun j _ => h.gate.served j⟩,
      (forall_update_iff s.requests fun _ r => s.PhaseOk r).mpr
        ⟨hphase, fun j _ => h.gate.phases j⟩,
      fun j k hj hk => h.gate.leader j k (hback j hj) (hback k hk)⟩

/-- The outcome of the last round is good for a generation it covers. -/
theorem phaseOk_returned (hle : (s.requests i).generation ≤ s.gate.completed) :
    s.PhaseOk { s.requests i with phase := .returned s.gate.failure } := by
  rw [PhaseOk]
  cases hfail : s.gate.failure with
  | some e => trivial
  | none =>
    dsimp only
    rcases h.gate.last hfail with hzero | hmem
    · -- no round has completed yet
      refine ⟨fun hpos => by omega, fun hserved => ?_⟩
      have hpos := h.gate.served i hserved
      omega
    · refine ⟨fun _ u k gen hrec hgen => ?_, fun _ => ⟨_, hmem, hle⟩⟩
      exact (h.gate.succeeded _ hmem).2 u k gen hrec (hgen.trans hle)

theorem request (i generation : ℕ) : (s.request i generation).Ok clean := by
  rw [SyncState.request]
  split
  · split_ifs with hle
    · exact h.setRequest i hle nofun trivial fun ⟨_, _, hphase⟩ => nomatch hphase
    · exact h
  · exact h

/-- With no round in flight nobody is parked on one and nobody leads one. -/
theorem of_idle (hidle : s.gate.running = none) (j : ℕ) :
    (s.requests j).phase ≠ .joined false ∧ ¬ (s.requests j).Leads := by
  have hphase := h.gate.phases j
  constructor
  · intro hj
    rw [PhaseOk, hj] at hphase
    obtain ⟨start, hrun, -⟩ := hphase
    rw [hidle] at hrun
    cases hrun
  · rintro ⟨start, round, hj⟩
    rw [PhaseOk, hj] at hphase
    rw [hidle] at hphase
    cases hphase.1

theorem turn (hlt : s.gate.completed < (s.requests i).generation) : (s.turn i).Ok clean := by
  have hpos : 0 < (s.requests i).generation := by omega
  have hbound := h.gate.bounded i
  rw [SyncState.turn]
  cases hrun : s.gate.running with
  | some start =>
    dsimp only
    split_ifs with hle
    · refine h.setRequest i hbound (fun _ => hpos) ?_ fun ⟨_, _, hphase⟩ => nomatch hphase
      exact ⟨start, hrun, hle⟩
    · exact h.setRequest i hbound (h.gate.served i) trivial fun ⟨_, _, hphase⟩ => nomatch hphase
  | none =>
    have hidle := h.of_idle hrun
    refine ⟨h.wals.of_records (fun _ => rfl) rfl rfl rfl rfl, ⟨h.gate.recovered,
      h.gate.completed, ?_, h.gate.succeeded, h.gate.last, ?_, ?_, ?_, ?_⟩⟩
    · intro start hstart
      obtain rfl : s.flushGen = start := Option.some.inj hstart
      exact ⟨h.gate.completed, le_rfl⟩
    · exact (forall_update_iff s.requests fun _ r => r.generation ≤ s.flushGen).mpr
        ⟨hbound, fun j _ => h.gate.bounded j⟩
    · exact (forall_update_iff s.requests fun _ r =>
        r.served = true → 0 < r.generation).mpr ⟨fun _ => hpos, fun j _ => h.gate.served j⟩
    · refine (forall_update_iff s.requests fun _ r => SyncState.PhaseOk _ r).mpr
        ⟨⟨rfl, hbound, trivial⟩, fun j _ => ?_⟩
      have hphase := h.gate.phases j
      obtain ⟨hj, hl⟩ := hidle j
      rw [PhaseOk] at hphase ⊢
      split at hphase
      all_goals try trivial
      case h_7 start round hr => exact absurd ⟨start, round, hr⟩ hl
    · intro j k hj hk
      have honly : ∀ j, (update s.requests i
          { s.requests i with phase := .leading s.flushGen .begun, served := true } j).Leads →
          j = i := by
        intro j hj
        by_contra hne
        rw [update_of_ne hne] at hj
        exact (hidle j).2 hj
      rw [honly j hj, honly k hk]

theorem returnOrTurn : (s.returnOrTurn i).Ok clean := by
  rw [SyncState.returnOrTurn]
  split_ifs with hle
  · exact h.setRequest i (h.gate.bounded i) (h.gate.served i) (h.phaseOk_returned i hle)
      fun ⟨_, _, hphase⟩ => nomatch hphase
  · exact h.turn i (not_le.mp hle)

theorem enter : (s.enter i).Ok clean := by
  rw [SyncState.enter]
  split
  · exact h.returnOrTurn i
  · exact h

theorem wake : (s.wake i).Ok clean := by
  rw [SyncState.wake]
  split
  case h_1 hphase =>
    have hle := h.gate.phases i
    rw [PhaseOk, hphase] at hle
    exact h.setRequest i (h.gate.bounded i) (h.gate.served i) (h.phaseOk_returned i hle)
      fun ⟨_, _, hphase⟩ => nomatch hphase
  · exact h.returnOrTurn i
  · exact h

/-- A round whose handles are all there are has every record to cover ahead of it. -/
theorem takeHandles : (s.takeHandles i).Ok clean := by
  rw [SyncState.takeHandles]
  split
  case h_1 start hphase =>
    split_ifs
    · exact h
    · have hok := h.gate.phases i
      rw [PhaseOk, hphase] at hok
      refine h.setRequest i (h.gate.bounded i) (h.gate.served i)
        ⟨hok.1, hok.2.1, fun u k gen hrec _ => ?_⟩ fun _ => ⟨start, .begun, hphase⟩
      have hne : (s.files u).records ≠ [] := ne_nil_of_mem (mem_of_getElem? hrec)
      exact (h.wals.held u hne).symm.imp_left .inr
  · exact h

theorem syncData (error : Option String) : (s.syncData i error).Ok clean := by
  rw [SyncState.syncData]
  split
  case h_2 => exact h
  case h_1 start u rest hphase =>
    have hok := h.gate.phases i
    rw [PhaseOk, hphase] at hok
    obtain ⟨hrun, hle, hround⟩ := hok
    cases error with
    | some e =>
      exact h.setRequest i (h.gate.bounded i) (h.gate.served i) ⟨hrun, hle, trivial⟩
        fun _ => ⟨start, _, hphase⟩
    | none =>
      -- first the file, then the leader
      let synced : SyncState := { s with
        files := update s.files u ⟨(s.files u).records, (s.files u).records.length⟩ }
      have hrecords : ∀ v, (synced.files v).records = (s.files v).records := by
        intro v
        show (update s.files u _ v).records = _
        by_cases hv : v = u
        · rw [hv, update_self]
        · rw [update_of_ne hv]
      have hsafe : ∀ v k gen, (s.files v).records[k]? = some gen → s.Safe v k ∨ v = u →
          synced.Safe v k := by
        intro v k gen hrec hcase
        by_cases hv : v = u
        · subst hv
          left
          show k < (update s.files v _ v).durable
          rw [update_self]
          exact (List.getElem?_eq_some_iff.mp hrec).1
        · refine (hcase.resolve_right hv).imp_left fun hdur => ?_
          show k < (update s.files u _ v).durable
          rwa [update_of_ne hv]
      have hlater : s.Later synced := ⟨le_rfl, fun v k gen hrec => .inl (hrecords v ▸ hrec),
        fun v k gen hrec hs => hsafe v k gen hrec (.inl hs)⟩
      have hsynced : synced.Ok clean :=
        ⟨h.wals.of_records hrecords rfl rfl rfl rfl, h.gate.later hlater rfl rfl rfl⟩
      refine hsynced.setRequest i (h.gate.bounded i) (h.gate.served i)
        ⟨hrun, hle, fun v k gen hrec hgen => ?_⟩ fun _ => ⟨start, _, hphase⟩
      rw [hrecords] at hrec
      rcases hround v k gen hrec hgen with hs | hmem
      · exact .inl (hsafe v k gen hrec (.inl hs))
      · rcases mem_cons.mp hmem with hv | hmem
        · exact .inl (hsafe v k gen hrec (.inr hv))
        · exact .inr hmem

/-- A round that is over wakes the requests it covers, and what it covers is safe if it succeeded. -/
theorem complete {i start : ℕ} {round : SyncRound} {failure : Option String}
    (hphase : (s.requests i).phase = .leading start round)
    (hcov : failure = none → s.Covered start) : (s.complete i start failure).Ok clean := by
  have hok := h.gate.phases i
  rw [PhaseOk, hphase] at hok
  obtain ⟨hrun, hle, -⟩ := hok
  obtain ⟨hcompleted, hstart⟩ := h.gate.running start hrun
  have hsame : ∀ r : SyncRequest,
      r.notified.generation = r.generation ∧ r.notified.served = r.served := by
    intro r
    rw [SyncRequest.notified]
    split <;> exact ⟨rfl, rfl⟩
  have hothers : ∀ j, j ≠ i → ¬ (s.requests j).Leads := fun j hj hl =>
    hj (h.gate.leader j i hl ⟨start, round, hphase⟩)
  refine ⟨h.wals.of_records (fun _ => rfl) rfl rfl rfl rfl,
    ⟨h.gate.recovered, hstart, nofun, ?_, ?_, ?_, ?_, ?_, ?_⟩⟩
  · intro st hst
    change st ∈ (if failure.isNone then start :: s.succeeded else s.succeeded) at hst
    split_ifs at hst with hfail
    · rcases mem_cons.mp hst with rfl | hst
      · exact ⟨hstart, hcov (Option.isNone_iff_eq_none.mp hfail)⟩
      · exact h.gate.succeeded st hst
    · exact h.gate.succeeded st hst
  · intro hfail
    right
    change failure = none at hfail
    rw [hfail]
    exact mem_cons_self
  · refine (forall_update_iff _ fun _ (r : SyncRequest) => r.generation ≤ s.flushGen).mpr
      ⟨h.gate.bounded i, fun j _ => ?_⟩
    rw [(hsame _).1]
    exact h.gate.bounded j
  · refine (forall_update_iff _ fun _ (r : SyncRequest) =>
      r.served = true → 0 < r.generation).mpr ⟨h.gate.served i, fun j _ => ?_⟩
    rw [(hsame _).1, (hsame _).2]
    exact h.gate.served j
  · refine (forall_update_iff _ fun _ r => SyncState.PhaseOk _ r).mpr ⟨?_, fun j hj => ?_⟩
    · cases failure with
      | some e => trivial
      | none =>
        refine ⟨fun _ u k gen hrec hgen' => ?_, fun _ => ⟨start, mem_cons_self, hle⟩⟩
        exact hcov rfl u k gen hrec (hgen'.trans hle)
    · have hok := h.gate.phases j
      have hother := hothers j hj
      generalize s.requests j = r at hok hother
      obtain ⟨g, phase, served⟩ := r
      cases phase with
      | idle | arrived | waiting => trivial
      | leading st rd => exact absurd ⟨st, rd, rfl⟩ hother
      | joined woken =>
        cases woken with
        | false =>
          obtain ⟨st, hst, hg⟩ := hok
          rwa [Option.mem_unique hrun hst]
        | true => exact le_trans hok hcompleted
      | returned f =>
        cases f with
        | some e => trivial
        | none =>
          refine ⟨hok.1, fun hs => ?_⟩
          obtain ⟨st, hst, hg⟩ := hok.2 hs
          refine ⟨st, ?_, hg⟩
          show st ∈ (if failure.isNone then start :: s.succeeded else s.succeeded)
          split_ifs
          · exact mem_cons_of_mem _ hst
          · exact hst
  · -- nobody leads
    have hnone : ∀ j, ¬ ((s.complete i start failure).requests j).Leads := by
      refine (forall_update_iff _ fun _ (r : SyncRequest) => ¬ r.Leads).mpr
        ⟨(fun ⟨_, _, hl⟩ => nomatch hl), fun j hj hl => hothers j hj ?_⟩
      obtain ⟨st, rd, hl⟩ := hl
      rw [SyncRequest.notified] at hl
      split at hl
      · cases hl
      · cases hl
      · exact ⟨st, rd, hl⟩
    exact fun j k hj => absurd hj (hnone j)

theorem finish : (s.finish i).Ok clean := by
  rw [SyncState.finish]
  split
  case h_1 start hphase =>
    have hok := h.gate.phases i
    rw [PhaseOk, hphase] at hok
    refine h.complete hphase fun _ u k gen hrec hgen => ?_
    exact (hok.2.2 u k gen hrec hgen).resolve_right (not_mem_nil)
  case h_2 start e hphase => exact h.complete hphase nofun
  case h_3 => exact h

theorem step (a : SyncAction) : (s.step a).Ok clean := by
  cases a with
  | lock => exact h.lock
  | append => exact h.append
  | publish => exact h.publish
  | abandon => exact h.abandon
  | rotate => exact h.rotate
  | commit u => exact h.commit u
  | swapPromote u => exact h.swapPromote u
  | request i generation => exact h.request i generation
  | enter i => exact h.enter i
  | wake i => exact h.wake i
  | takeHandles i => exact h.takeHandles i
  | syncData i error => exact h.syncData i error
  | finish i => exact h.finish i

end Ok

/-- A recovered record that was synced is durable from the start. -/
theorem covered_init_iff {recovered : Option RecoveredWal} :
    (init recovered).Covered 0 ↔ ∀ w ∈ recovered, w.records ≤ w.durable := by
  cases recovered with
  | none => exact iff_of_true (fun u k gen hrec => nomatch hrec) nofun
  | some w =>
    have hsafe : ∀ k, (init (some w)).Safe 0 k ↔ k < w.durable := fun k =>
      ⟨fun h => h.resolve_right (Finset.notMem_empty 0), .inl⟩
    simp only [Option.mem_some_iff, forall_eq']
    constructor
    · intro h
      by_contra hlt
      have hrec : ((init (some w)).files 0).records[w.durable]? = some 0 :=
        List.getElem?_replicate_of_lt (not_le.mp hlt)
      exact lt_irrefl _ ((hsafe _).mp (h 0 _ 0 hrec le_rfl))
    · intro h u k gen hrec _
      by_cases hu : u = 0
      · subst hu
        have hk := (List.getElem?_eq_some_iff.mp hrec).1
        rw [show ((init (some w)).files 0).records = replicate w.records 0 from rfl,
          length_replicate] at hk
        exact (hsafe k).mpr (hk.trans_le h)
      · simp [init, hu] at hrec

theorem ok_init (recovered : Option RecoveredWal) :
    (init recovered).Ok ((init recovered).Covered 0) where
  wals := by
    have hempty : ∀ u, u ≠ 0 → ((init recovered).files u).records = [] := by
      intro u hu
      cases recovered <;> simp [init, hu]
    refine ⟨fun u hu => ?_, fun u hu => ⟨hempty u (Nat.one_le_iff_ne_zero.mp hu),
      Finset.notMem_empty u⟩, fun u hu => ?_, fun u hu => ⟨not_mem_nil, Finset.notMem_empty u⟩⟩
    · obtain rfl : u = 0 := by_contra fun hne => hu (hempty u hne)
      cases recovered with
      | none => exact absurd rfl hu
      | some w => exact .inl (mem_append_left _ (mem_singleton_self 0))
    · cases recovered with
      | none => exact absurd hu not_mem_nil
      | some w =>
        obtain rfl : u = 0 := by simpa [syncHandles, init] using hu
        exact Nat.one_pos
  gate := ⟨id, le_rfl, nofun, nofun, fun _ => .inl rfl, fun _ => le_rfl, fun _ => nofun,
    fun _ => trivial, fun _ _ hi => nomatch hi⟩

/-- What a FLUSH promises, to the requests at the generations of interest: one that has returned Ok
has every record published at or below its generation durable or in a committed segment; and if it
led or joined a round, then a round that started at or after its generation has succeeded. -/
def Barrier (asked : ℕ → Prop) (s : SyncState) : Prop :=
  ∀ i, (s.requests i).phase = .returned none →
    (asked (s.requests i).generation → s.Covered (s.requests i).generation) ∧
      ((s.requests i).served = true → ∃ start ∈ s.succeeded, (s.requests i).generation ≤ start)

theorem Ok.barrier {s : SyncState} (h : s.Ok clean) : s.Barrier (fun g => 0 < g ∨ clean) := by
  intro i hphase
  have hok := h.gate.phases i
  rw [PhaseOk, hphase] at hok
  refine ⟨fun hasked => ?_, hok.2⟩
  rcases Nat.eq_zero_or_pos (s.requests i).generation with hzero | hpos
  · rw [hzero] at hasked ⊢
    exact h.gate.recovered (hasked.resolve_left (lt_irrefl 0))
  · exact hok.1 hpos

theorem always_ok (recovered : Option RecoveredWal) (as : List SyncAction) :
    Run.Always step (Ok · ((init recovered).Covered 0)) (init recovered) as :=
  Run.always_of_each (fun _ a h _ => h.step a) (ok_init recovered)
    (Run.each_of_forall (fun _ _ => trivial) _ as)

/-- A FLUSH before the first write. -/
theorem flush_first (recovered : Option RecoveredWal) :
    let s := [.request 0 0, .enter 0].foldl step (init recovered)
    (s.requests 0).phase = .returned none ∧ (s.requests 0).generation = 0 ∧
      (s.Covered 0 ↔ (init recovered).Covered 0) :=
  ⟨rfl, rfl, Iff.rfl⟩

/-- **Flush is a durability barrier from the first write on**, in every state of every run; at
generation 0 it is one exactly if the recovered WAL was synced when the volume was opened. -/
theorem flush_durable_iff (recovered : Option RecoveredWal) :
    (∀ as, Run.Always step (Barrier (0 < ·)) (init recovered) as) ∧
      ((∀ as, Run.Always step (Barrier fun _ => True) (init recovered) as) ↔
        ∀ w ∈ recovered, w.records ≤ w.durable) := by
  rw [← covered_init_iff]
  refine ⟨fun as => (always_ok recovered as).mono fun s h i hphase => ?_, fun h => ?_,
    fun h as => (always_ok recovered as).mono fun s hs i hphase => ?_⟩
  · exact (h.barrier i hphase).imp_left fun hcov hpos => hcov (.inl hpos)
  · obtain ⟨hphase, hgen, hcov⟩ := flush_first recovered
    have hlast := (h [.request 0 0, .enter 0]).last 0 hphase
    rw [hgen] at hlast
    exact hcov.mp (hlast.1 trivial)
  · exact (hs.barrier i hphase).imp_left fun hcov _ => hcov (.inr h)

/-- A process dies with a record in its WAL that no round had synced. The next one recovers and
publishes it, and a FLUSH returns Ok with no round: the record is in the page cache only. -/
theorem flush_skips_recovered :
    let s := [.request 0 0, .enter 0].foldl step (init (some ⟨1, 0⟩))
    (s.requests 0).phase = .returned none ∧ s.succeeded = [] ∧
      ¬ s.Covered (s.requests 0).generation := by
  refine ⟨rfl, rfl, fun h => ?_⟩
  rcases h 0 0 0 rfl le_rfl with hdurable | hcommitted
  · exact absurd hdurable (by decide)
  · exact absurd hcommitted (Finset.notMem_empty 0)

/-- Two requests share a round that fails, the first as its leader. Before the second is awake a
third runs another round, which succeeds, and the second returns Ok on the strength of that one. -/
example :
    let s := List.foldl step (init none) [.lock, .append, .publish, .request 0 1, .enter 0,
      .request 1 1, .enter 1, .takeHandles 0, .syncData 0 (some "EIO"), .finish 0, .lock, .append,
      .publish, .request 2 2, .enter 2, .takeHandles 2, .syncData 2 none, .finish 2, .wake 1]
    (s.requests 0).phase = .returned (some "EIO") ∧ (s.requests 1).phase = .returned none ∧
      s.succeeded = [2] ∧ (s.files 1).durable = 2 :=
  ⟨rfl, rfl, rfl, rfl⟩

end SyncState

end Elide
