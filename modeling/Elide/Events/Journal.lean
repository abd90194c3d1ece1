import Elide.Events.Basic
import Elide.Lib.Run

/-!
# Reading a journal

`events/<name>/HEAD` has the last events of a name, and each event has a record of its own. A reader
takes the window and, if that is not enough and the window was full, follows the back-links from
record to record. A verified listing then fetches the key of each event's coordinator and checks the
signature over what it read. It compares neither the event's name with the name of the log nor the
event's time with its ULID.

Objects are given by what their reading gives, errors included. The listing's key cache is left out,
since a fetch answers the same each time.

## Main results

* `EventLog.valid_honest_iff`: the entries listed as valid are events of this name as their
  coordinator emitted them exactly when those of HEAD's entries and of the records behind them that
  verify are of this name and have the time of their ULID.
* `EventLog.foreign_event_valid`: an event of another name, listed as valid.
-/

namespace Elide

open List

/-- An event whose kind did not parse, by the fields that could be read. -/
structure OpaqueEvent where
  eventUlid : Option Ulid
  prevEventUlid : Option Ulid
  volUlid : Option Ulid
  name : Option Text
  coordinatorId : Option Text
  hostname : Option Text
  signature : Option Text
  originalKind : Option Text

/-- A stand-in, where enough could be read. -/
def OpaqueEvent.asVolumeEvent (o : OpaqueEvent) : Option VolumeEvent := do
  let e ← VolumeEvent.new (← o.eventUlid) (← o.name) (← o.coordinatorId) o.hostname (← o.volUlid)
    o.prevEventUlid (.unknown o.originalKind)
  return { e with signature := o.signature }

/-- What a TOML value is read as. -/
inductive HeadEvent where
  | parsed (event : VolumeEvent)
  /-- The source's `Opaque`. -/
  | unparsed (event : OpaqueEvent)

/-- The event an entry of HEAD stands for, if it can be had. -/
def HeadEvent.intoVolumeEvent : HeadEvent → Option VolumeEvent
  | parsed e => some e
  | unparsed o => o.asVolumeEvent

/-- Why the journal could not be read. -/
inductive EventError where
  | store (message : Text)
  | parseHead (message : Text)
  deriving DecidableEq

/-- The record of an event, as a GET and a parse find it. -/
inductive StoredRecord where
  | missing
  | failed (message : Text)
  | corrupt
  | value (event : HeadEvent)

/-- A key, by what it answers for a message and a signature. -/
abbrev VerifyingKey := Text → List UInt8 → Except Text Unit

/-- What the bucket has for a name, and the keys of coordinators. -/
structure EventLog where
  /-- HEAD, if it is there. -/
  head : Except EventError (Option (List HeadEvent))
  record : Ulid → StoredRecord
  /-- What fetching a coordinator's key gives. A key that does not derive to the coordinator's id is
  an error. -/
  fetchCoordinatorPub : Text → Except Text VerifyingKey

/-- How many events HEAD holds at most. -/
def HEAD_WINDOW : ℕ := 16

/-- What became of the check of an event's signature. -/
inductive SignatureStatus where
  | valid
  | invalid (reason : Text)
  | keyUnavailable (reason : Text)
  | missing
  | unparseable
  deriving DecidableEq

/-- An event as it is shown, with its signature's status. -/
structure VolumeEventEntry where
  event : VolumeEvent
  signatureStatus : SignatureStatus
  deriving DecidableEq

/-- Check an event's signature under a key. -/
def verifyEventSignature (U : UlidText) (event : VolumeEvent) (key : VerifyingKey) :
    SignatureStatus :=
  match event.signature with
  | none => .missing
  | some sigHex =>
    match decodeHex sigHex with
    | .error e => .invalid ("signature hex decode: ".toList ++ e)
    | .ok bytes =>
      if bytes.length = 64 then
        match key (event.signingPayload U) bytes with
        | .ok () => .valid
        | .error e => .invalid ("signature did not verify: ".toList ++ e)
      else .invalid ("signature wrong length (".toList ++ bytes.length.repr.toList ++
        ", want 64)".toList)

namespace EventLog

variable (log : EventLog)

/-- Up to so many more events along the back-links. -/
def walk : ℕ → Option Ulid → Except EventError (List VolumeEvent)
  | 0, _ => .ok []
  | _ + 1, none => .ok []
  | n + 1, some p =>
    match log.record p with
    | .missing | .corrupt => .ok []
    | .failed e => .error (.store e)
    | .value v =>
      match v.intoVolumeEvent with
      | none => .ok []
      | some event => (walk n event.prevEventUlid).map (event :: ·)

/-- Up to `limit` events, the newest first. -/
def recentVia (limit : ℕ) : Except EventError (List VolumeEvent) :=
  if limit = 0 then .ok []
  else match log.head with
    | .error e => .error e
    | .ok none => .ok []
    | .ok (some head) =>
      let events := head.filterMap HeadEvent.intoVolumeEvent
      if limit ≤ events.length then .ok (events.take limit)
      -- a short window is the whole log
      else if head.length < HEAD_WINDOW then .ok events
      else (log.walk (limit - events.length) (events.getLast?.bind VolumeEvent.prevEventUlid)).map
        (events ++ ·)

variable (U : UlidText)

/-- The status of one event. -/
def status (event : VolumeEvent) : SignatureStatus :=
  if event.kind.isUnknown then .unparseable
  else match log.fetchCoordinatorPub event.coordinatorId with
    | .error e => .keyUnavailable e
    | .ok key => verifyEventSignature U event key

/-- The events and their status, the oldest first. -/
def listAndVerifyVia (limit : ℕ) : Except EventError (List VolumeEventEntry) :=
  (log.recentVia limit).map fun events => events.reverse.map fun event => ⟨event, log.status U event⟩

end EventLog

/-- Who emitted what. A key verifies the payload of an event only if its coordinator emitted an event
with that payload. -/
structure Coordinators (U : UlidText) (log : EventLog) where
  Emitted : Text → VolumeEvent → Prop
  emittedBy : ∀ coordId e, Emitted coordId e → e.EmittedBy coordId
  signed : ∀ coordId key, log.fetchCoordinatorPub coordId = .ok key → ∀ (e : VolumeEvent) sig,
    key (e.signingPayload U) sig = .ok () →
      ∃ e', Emitted coordId e' ∧ e.signingPayload U = e'.signingPayload U

namespace EventLog

variable {U : UlidText} {log : EventLog} (C : Coordinators U log)

/-- The event is one that the coordinator it names emitted, with its time, and for this name. -/
def Honest (name : Text) (event : VolumeEvent) : Prop :=
  (∃ e', C.Emitted event.coordinatorId e' ∧ event.Agrees e' ∧ event.atTime = e'.atTime) ∧
    event.name = name ∧ event.atTime = timestampMs event.eventUlid * 1000000

/-- The event is of a known kind, and the published key of its coordinator takes its signature. -/
def Verifies (U : UlidText) (log : EventLog) (event : VolumeEvent) : Prop :=
  event.kind.isUnknown = false ∧ ∃ key, log.fetchCoordinatorPub event.coordinatorId = .ok key ∧
    ∃ hex, event.signature = some hex ∧ ∃ sig, decodeHex hex = .ok sig ∧ sig.length = 64 ∧
      key (event.signingPayload U) sig = .ok ()

theorem status_eq_valid_iff {event : VolumeEvent} :
    log.status U event = .valid ↔ log.Verifies U event := by
  constructor
  · intro h
    rw [status] at h
    split_ifs at h with hkind
    split at h
    · cases h
    · rename_i key hkey
      rw [verifyEventSignature] at h
      split at h
      · cases h
      · rename_i hex hhex
        split at h
        · cases h
        · rename_i sig hsig
          split_ifs at h with hlen
          split at h
          · exact ⟨by simpa using hkind, key, hkey, hex, hhex, sig, hsig, hlen, ‹_›⟩
          · cases h
  · rintro ⟨hkind, key, hkey, hex, hhex, sig, hsig, hlen, hverify⟩
    simp only [status, hkind, hkey, verifyEventSignature, hhex, hsig, hlen, hverify,
      Bool.false_eq_true, if_true, if_false]

/-- What verifies has been emitted but for the time, and is honest if its name and time are right. -/
theorem honest_iff_of_verifies {name : Text} {event : VolumeEvent} (h : log.Verifies U event) :
    Honest C name event ↔
      event.name = name ∧ event.atTime = timestampMs event.eventUlid * 1000000 := by
  constructor
  · exact fun hh => hh.2
  · rintro ⟨hname, htime⟩
    obtain ⟨-, key, hkey, hex, -, sig, -, -, hverify⟩ := h
    obtain ⟨e', he', hpayload⟩ := C.signed _ key hkey event _ hverify
    have hagrees := VolumeEvent.agrees_of_payload U (C.emittedBy _ _ he') hpayload
    refine ⟨⟨e', he', hagrees, ?_⟩, hname, htime⟩
    rw [htime, (C.emittedBy _ _ he').time, hagrees.eventUlid]

/-! ### What a listing reads -/

variable (log) in
/-- The next `n` records on the back-links from `p` hold these events. A chain ends early where there
is no link, or no event at the end of it. -/
inductive Chain : ℕ → Option Ulid → List VolumeEvent → Prop
  | enough (p : Option Ulid) : Chain 0 p []
  | first (n : ℕ) : Chain (n + 1) none []
  | missing {n : ℕ} {p : Ulid} (h : log.record p = .missing) : Chain (n + 1) (some p) []
  | corrupt {n : ℕ} {p : Ulid} (h : log.record p = .corrupt) : Chain (n + 1) (some p) []
  | unread {n : ℕ} {p : Ulid} {v : HeadEvent} (h : log.record p = .value v)
      (hv : v.intoVolumeEvent = none) : Chain (n + 1) (some p) []
  | link {n : ℕ} {p : Ulid} {v : HeadEvent} {event : VolumeEvent} {events : List VolumeEvent}
      (h : log.record p = .value v) (hv : v.intoVolumeEvent = some event)
      (hrest : Chain n event.prevEventUlid events) : Chain (n + 1) (some p) (event :: events)

theorem walk_eq_ok_iff {n : ℕ} {p : Option Ulid} {events : List VolumeEvent} :
    log.walk n p = .ok events ↔ log.Chain n p events := by
  constructor
  · intro h
    fun_induction walk generalizing events with
    | case1 => exact Except.ok.inj h ▸ .enough _
    | case2 => exact Except.ok.inj h ▸ .first _
    | case3 n p hp => exact Except.ok.inj h ▸ .missing hp
    | case4 n p hp => exact Except.ok.inj h ▸ .corrupt hp
    | case5 => cases h
    | case6 n p v hp hv => exact Except.ok.inj h ▸ .unread hp hv
    | case7 n p v hp event hv ih =>
      obtain ⟨rest, hrest, h⟩ := Run.exists_of_bind_ok h
      exact Except.ok.inj h ▸ .link hp hv (ih hrest)
  · intro h
    induction h with
    | enough | first => simp [walk]
    | missing h | corrupt h => simp [walk, h]
    | unread h hv => simp [walk, h, hv]
    | link h hv _ ih =>
      simp only [walk, h, hv, ih]
      rfl

/-- How many back-links a listing follows: none if HEAD has enough events or is not full. -/
def links (limit : ℕ) (head : List HeadEvent) : ℕ :=
  if limit ≤ (head.filterMap HeadEvent.intoVolumeEvent).length ∨ head.length < HEAD_WINDOW then 0
  else limit - (head.filterMap HeadEvent.intoVolumeEvent).length

variable (log) in
/-- The event is one of HEAD's first `limit`, or on the chain behind HEAD's oldest. -/
def Read (limit : ℕ) (event : VolumeEvent) : Prop :=
  ∃ head chain, log.head = .ok (some head) ∧ log.Chain (links limit head)
      ((head.filterMap HeadEvent.intoVolumeEvent).getLast?.bind VolumeEvent.prevEventUlid) chain ∧
    event ∈ (head.filterMap HeadEvent.intoVolumeEvent).take limit ++ chain

/-- A listing returns what it read. -/
theorem read_iff {limit : ℕ} {event : VolumeEvent} :
    log.Read limit event ↔ ∃ events, log.recentVia limit = .ok events ∧ event ∈ events := by
  have hnone : ∀ {events : List HeadEvent} {p : Option Ulid} {chain : List VolumeEvent},
      (limit ≤ (events.filterMap HeadEvent.intoVolumeEvent).length ∨ events.length < HEAD_WINDOW) →
      (log.Chain (links limit events) p chain ↔ chain = []) := by
    intro events p chain hfew
    rw [links, if_pos hfew]
    exact ⟨fun h => by cases h; rfl, fun h => h ▸ .enough p⟩
  rw [Read, recentVia]
  split_ifs with hzero
  · subst hzero
    simp only [hnone (.inl (Nat.zero_le _)), take_zero, nil_append]
    constructor
    · rintro ⟨head, chain, -, rfl, hmem⟩
      cases hmem
    · rintro ⟨events, hevents, hmem⟩
      rw [← Except.ok.inj hevents] at hmem
      cases hmem
  cases log.head with
  | error e => simp
  | ok head =>
    cases head with
    | none => simp
    | some head =>
      simp only [Except.ok.injEq, Option.some_inj, exists_and_left, exists_eq_left']
      split_ifs with henough hshort
      · simp [hnone (.inl henough)]
      · simp [hnone (.inr hshort), take_of_length_le (not_le.mp henough).le]
      · rw [links, if_neg (not_or.mpr ⟨henough, hshort⟩), take_of_length_le (not_le.mp henough).le]
        constructor
        · rintro ⟨chain, hchain, hmem⟩
          rw [walk_eq_ok_iff.mpr hchain]
          exact ⟨_, rfl, hmem⟩
        · rintro ⟨events, hevents, hmem⟩
          obtain ⟨chain, hchain, h⟩ := Run.exists_of_bind_ok hevents
          obtain rfl := Except.ok.inj h
          exact ⟨chain, walk_eq_ok_iff.mp hchain, hmem⟩

/-- **Valid entries are honest exactly when the events that verify are of this log and of their
time.** For every content of HEAD and of the records, the entries listed as valid are events that
their coordinator emitted for this name if and only if each event among HEAD's entries and the
records behind them, and whose signature verifies, is of this name and has the time of its ULID. -/
theorem valid_honest_iff (name : Text) (limit : ℕ) :
    (∀ entries, log.listAndVerifyVia U limit = .ok entries → ∀ entry ∈ entries,
      entry.signatureStatus = .valid → Honest C name entry.event) ↔
    ∀ event, log.Read limit event → log.Verifies U event →
      event.name = name ∧ event.atTime = timestampMs event.eventUlid * 1000000 := by
  constructor
  · intro h event hread hverifies
    obtain ⟨events, hevents, hmem⟩ := read_iff.mp hread
    refine (honest_iff_of_verifies C hverifies).mp ?_
    refine h (events.reverse.map fun event => ⟨event, log.status U event⟩) ?_
      ⟨event, log.status U event⟩ ?_ (status_eq_valid_iff.mpr hverifies)
    · rw [listAndVerifyVia, hevents]
      rfl
    · exact mem_map_of_mem (mem_reverse.mpr hmem)
  · intro h entries hentries entry hmem hvalid
    obtain ⟨events, hevents, hentries⟩ := Run.exists_of_bind_ok hentries
    obtain rfl := (Except.ok.inj hentries).symm
    obtain ⟨event, hevent, rfl⟩ := mem_map.mp hmem
    have hverifies := status_eq_valid_iff.mp hvalid
    exact (honest_iff_of_verifies C hverifies).mpr
      (h event (read_iff.mpr ⟨events, hevents, mem_reverse.mp hevent⟩) hverifies)

end EventLog

namespace ForeignEvent

/-- The creation of `b`. -/
def foreign : VolumeEvent :=
  ⟨3, 2 ^ 80, 1000000, ['b'], ['c'], none, 7, none, .created, some (replicate 128 '0')⟩

/-- The creation of `a`. -/
def own : VolumeEvent := { foreign with name := ['a'] }

/-- The log of `a`: its event with another time, and that of `b`. The key verifies the two payloads
that were signed. -/
def journal : EventLog where
  head := .ok (some [.parsed foreign, .parsed { own with atTime := 0 }])
  record _ := .missing
  fetchCoordinatorPub coordId :=
    if coordId = ['c'] then .ok fun msg _ =>
      if msg = foreign.signingPayload .crockford ∨ msg = own.signingPayload .crockford then .ok ()
      else .error "signature error".toList
    else .error []

/-- Coordinator `c` has signed both events. -/
def coordinators : Coordinators .crockford journal where
  Emitted coordId e := coordId = ['c'] ∧ (e = foreign ∨ e = own)
  emittedBy := by
    rintro _ _ ⟨rfl, rfl | rfl⟩
    · exact ⟨rfl, rfl, rfl, rfl, by decide⟩
    · exact ⟨rfl, rfl, rfl, rfl, by decide⟩
  signed := by
    intro coordId key hkey e sig hsig
    simp only [journal] at hkey
    split_ifs at hkey with hc
    obtain rfl := Except.ok.inj hkey
    beta_reduce at hsig
    split_ifs at hsig with hmsg
    rcases hmsg with hmsg | hmsg
    · exact ⟨foreign, ⟨hc, .inl rfl⟩, hmsg⟩
    · exact ⟨own, ⟨hc, .inr rfl⟩, hmsg⟩

end ForeignEvent

open ForeignEvent in
/-- **An event of another name and one with another time are valid.** Both events of the log of `a`
are listed as valid. One is the creation of `b`, and the other has not the time of its ULID. -/
theorem EventLog.foreign_event_valid : journal.listAndVerifyVia .crockford 16 =
        .ok [⟨{ own with atTime := 0 }, .valid⟩, ⟨foreign, .valid⟩] ∧
      ¬ EventLog.Honest coordinators ['a'] foreign ∧
      ¬ EventLog.Honest coordinators ['a'] { own with atTime := 0 } := by
  refine ⟨by decide +kernel, ?_, ?_⟩
  · rintro ⟨-, hname, -⟩
    cases hname
  · rintro ⟨-, -, htime⟩
    cases htime

end Elide
