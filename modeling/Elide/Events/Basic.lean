import Elide.Provenance.Signature
import Mathlib.Data.Nat.Digits.Lemmas
import Std.Data.String.ToNat

/-!
# Volume events

Every change of a name is recorded as an event that the coordinator signs. The signed payload is a
domain tag and then one line for each field, in a fixed order that ends with the fields of the kind.
The timestamp `at` (here `atTime`) is not signed: it is the time of the event's ULID, which `fromToml` checks.

A read event may hold newlines in its texts, so the payload is not injective. It is on the events
that coordinators emit (`VolumeEvent.agrees_of_payload`).
-/

namespace Elide

open List

/-- What happened, with what is particular to it. -/
inductive EventKind where
  | created
  | claimed
  | released (handoffSnapshot : Ulid)
  | forceClaimed (sourceVolUlid : Ulid) (displacedCoordinatorId : Option Text)
  | forkedFrom (sourceName : Text) (sourceVolUlid sourceSnapUlid : Ulid)
  | renamedTo (newName : Text)
  | renamedFrom (oldName inheritsLogFrom : Text)
  | displaced (sourceName : Text) (sourceFork : Ulid) (displacedBy : Option Text)
  | superseded (sourceName : Text) (sourceFork : Ulid) (supersededBy : Option Text)
  /-- A kind that did not parse. -/
  | unknown (originalKind : Option Text)
  deriving DecidableEq

/-- The kind alone. -/
inductive EventTag where
  | created
  | claimed
  | released
  | forceClaimed
  | forkedFrom
  | renamedTo
  | renamedFrom
  | displaced
  | superseded
  | unknown
  deriving DecidableEq

/-- The tag as it is written. -/
def EventTag.asStr : EventTag → Text
  | created => "created".toList
  | claimed => "claimed".toList
  | released => "released".toList
  | forceClaimed => "force_claimed".toList
  | forkedFrom => "forked_from".toList
  | renamedTo => "renamed_to".toList
  | renamedFrom => "renamed_from".toList
  | displaced => "displaced".toList
  | superseded => "superseded".toList
  | unknown => "unknown".toList

theorem EventTag.asStr_injective : Function.Injective EventTag.asStr := by
  intro a b h
  cases a <;> cases b <;> first | rfl | exact absurd h (by decide)

namespace EventKind

/-- The tag of a kind. -/
def tag : EventKind → EventTag
  | created => .created
  | claimed => .claimed
  | released _ => .released
  | forceClaimed _ _ => .forceClaimed
  | forkedFrom _ _ _ => .forkedFrom
  | renamedTo _ => .renamedTo
  | renamedFrom _ _ => .renamedFrom
  | displaced _ _ _ => .displaced
  | superseded _ _ _ => .superseded
  | unknown _ => .unknown

/-- The `kind` field as it is written. -/
def asStr (k : EventKind) : Text := k.tag.asStr

/-- Whether this version does not know the kind. -/
def isUnknown (k : EventKind) : Bool := decide (k.tag = .unknown)

end EventKind

/-- An entry of the journal of a name. -/
structure VolumeEvent where
  version : ℕ
  eventUlid : Ulid
  /-- Nanoseconds since the epoch. -/
  atTime : ℤ
  name : Text
  coordinatorId : Text
  hostname : Option Text
  volUlid : Ulid
  prevEventUlid : Option Ulid
  kind : EventKind
  signature : Option Text
  deriving DecidableEq

/-- The time of a ULID, in its upper 48 bits. -/
def timestampMs (u : Ulid) : ℕ := u / 2 ^ 80

/-- The time as a date. All times of ULIDs can be represented. -/
def datetimeFromMs (ms : ℕ) : Option ℤ := if ms < 2 ^ 48 then some (ms * 1000000) else none

namespace VolumeEvent

/-- The version written into new events. -/
def CURRENT_VERSION : ℕ := 3

/-- An event that is not signed yet. -/
def new (eventUlid : Ulid) (name coordinatorId : Text) (hostname : Option Text) (volUlid : Ulid)
    (prevEventUlid : Option Ulid) (kind : EventKind) : Option VolumeEvent :=
  (datetimeFromMs (timestampMs eventUlid)).map fun atTime =>
    ⟨CURRENT_VERSION, eventUlid, atTime, name, coordinatorId, hostname, volUlid, prevEventUlid, kind,
      none⟩

section Payload

variable (U : UlidText)

/-- What every signed message starts with. -/
def SIGNING_DOMAIN_TAG : Text := "elide volume-event v1\x00".toList

/-- The signed fields of the kind. -/
def kindFields : EventKind → List (Text × Text)
  | .created | .claimed | .unknown _ => []
  | .released handoffSnapshot => [("handoff_snapshot".toList, U.toText handoffSnapshot)]
  | .forceClaimed sourceVolUlid displacedCoordinatorId =>
    [("displaced_coordinator_id".toList, displacedCoordinatorId.getD []),
      ("source_vol_ulid".toList, U.toText sourceVolUlid)]
  | .forkedFrom sourceName sourceVolUlid sourceSnapUlid =>
    [("source_name".toList, sourceName), ("source_vol_ulid".toList, U.toText sourceVolUlid),
      ("source_snap_ulid".toList, U.toText sourceSnapUlid)]
  | .renamedTo newName => [("new_name".toList, newName)]
  | .renamedFrom oldName inheritsLogFrom =>
    [("old_name".toList, oldName), ("inherits_log_from".toList, inheritsLogFrom)]
  | .displaced sourceName sourceFork displacedBy =>
    [("displaced_by".toList, displacedBy.getD []), ("source_name".toList, sourceName),
      ("source_fork".toList, U.toText sourceFork)]
  | .superseded sourceName sourceFork supersededBy =>
    [("source_name".toList, sourceName), ("source_fork".toList, U.toText sourceFork),
      ("superseded_by".toList, supersededBy.getD [])]

/-- The signed fields that every event has. -/
def commonFields (e : VolumeEvent) : List (Text × Text) :=
  [("version".toList, e.version.repr.toList),
    ("event_ulid".toList, U.toText e.eventUlid),
    ("name".toList, e.name),
    ("coordinator_id".toList, e.coordinatorId),
    ("hostname".toList, e.hostname.getD []),
    ("vol_ulid".toList, U.toText e.volUlid),
    ("prev_event_ulid".toList, (e.prevEventUlid.map U.toText).getD []),
    ("kind".toList, e.kind.asStr)]

/-- The signed bytes. -/
def signingPayload (e : VolumeEvent) : Text :=
  SIGNING_DOMAIN_TAG ++ Text.tagged '\n' ((e.commonFields U ++ kindFields U e.kind).map Text.field)

end Payload

/-! ### Emitted events -/

/-- The texts of the event. -/
def texts (e : VolumeEvent) : List Text :=
  [e.name, e.coordinatorId, e.hostname.getD []] ++ match e.kind with
    | .forceClaimed _ displacedCoordinatorId => [displacedCoordinatorId.getD []]
    | .forkedFrom sourceName _ _ => [sourceName]
    | .renamedTo newName => [newName]
    | .renamedFrom oldName inheritsLogFrom => [oldName, inheritsLogFrom]
    | .displaced sourceName _ displacedBy => [sourceName, displacedBy.getD []]
    | .superseded sourceName _ supersededBy => [sourceName, supersededBy.getD []]
    | _ => []

/-- An event as a coordinator emits it, by `new` and with texts that have no newline. -/
structure EmittedBy (coordId : Text) (e : VolumeEvent) : Prop where
  version : e.version = CURRENT_VERSION
  time : e.atTime = timestampMs e.eventUlid * 1000000
  coordinatorId : e.coordinatorId = coordId
  known : e.kind.isUnknown = false
  texts : ∀ t ∈ e.texts, '\n' ∉ t

/-- Kinds that agree, where no text is the empty text. -/
def KindAgrees : EventKind → EventKind → Prop
  | .forceClaimed v d, .forceClaimed v' d' => v = v' ∧ d.getD [] = d'.getD []
  | .displaced n f d, .displaced n' f' d' => n = n' ∧ f = f' ∧ d.getD [] = d'.getD []
  | .superseded n f s, .superseded n' f' s' => n = n' ∧ f = f' ∧ s.getD [] = s'.getD []
  | k, k' => k = k'

/-- Events that agree in what is signed, where no text is the empty text. -/
structure Agrees (e e' : VolumeEvent) : Prop where
  version : e.version = e'.version
  eventUlid : e.eventUlid = e'.eventUlid
  name : e.name = e'.name
  coordinatorId : e.coordinatorId = e'.coordinatorId
  hostname : e.hostname.getD [] = e'.hostname.getD []
  volUlid : e.volUlid = e'.volUlid
  prevEventUlid : e.prevEventUlid = e'.prevEventUlid
  kind : KindAgrees e.kind e'.kind

section Injective

variable (U : UlidText)

theorem toText_injective : Function.Injective U.toText := by
  intro u v h
  have hu := U.fromText_toText u
  rw [h, U.fromText_toText v] at hu
  exact (Except.ok.inj hu).symm

theorem newline_not_mem_toText (u : Ulid) : '\n' ∉ U.toText u := by
  intro h
  have := U.isAlphanum_toText u _ h
  cases this

theorem newline_not_mem_repr (n : ℕ) : '\n' ∉ n.repr.toList := by
  rw [Nat.repr_eq_ofList_toDigits, String.toList_ofList]
  intro h
  have := Nat.isDigit_of_mem_toDigits (by norm_num) (by norm_num) h
  cases this

theorem newline_not_mem_asStr (k : EventKind) : '\n' ∉ k.asStr := by
  rw [EventKind.asStr]
  cases k.tag <;> decide

/-- The fields every event has. -/
def commonKeys : List Text :=
  ["version".toList, "event_ulid".toList, "name".toList, "coordinator_id".toList,
    "hostname".toList, "vol_ulid".toList, "prev_event_ulid".toList, "kind".toList]

/-- The fields of each kind, besides the common ones. -/
def kindKeys : EventTag → List Text
  | .created | .claimed | .unknown => []
  | .released => ["handoff_snapshot".toList]
  | .forceClaimed => ["displaced_coordinator_id".toList, "source_vol_ulid".toList]
  | .forkedFrom => ["source_name".toList, "source_vol_ulid".toList, "source_snap_ulid".toList]
  | .renamedTo => ["new_name".toList]
  | .renamedFrom => ["old_name".toList, "inherits_log_from".toList]
  | .displaced => ["displaced_by".toList, "source_name".toList, "source_fork".toList]
  | .superseded => ["source_name".toList, "source_fork".toList, "superseded_by".toList]

/-- The keys depend on the kind alone. -/
theorem map_fst_fields (e : VolumeEvent) : (e.commonFields U).map Prod.fst = commonKeys ∧
      (kindFields U e.kind).map Prod.fst = kindKeys e.kind.tag := by
  refine ⟨rfl, ?_⟩
  cases e.kind <;> rfl

theorem kindAgrees_of_fields {k k' : EventKind} (hk : k'.isUnknown = false) (htag : k.tag = k'.tag)
    (h : kindFields U k = kindFields U k') : KindAgrees k k' := by
  have hinj := toText_injective U
  cases k' <;> cases k <;> cases htag
  case unknown.unknown => cases hk
  all_goals
    simp only [kindFields, List.cons.injEq, Prod.mk.injEq, hinj.eq_iff] at h
    simp [KindAgrees, h]

theorem keys_spec (t : EventTag) : (commonKeys ++ kindKeys t).Nodup ∧
    ∀ k ∈ commonKeys ++ kindKeys t, '=' ∉ k ∧ '\n' ∉ k := by
  cases t <;> decide

/-- An emitted event has no newline in a signed value. -/
theorem EmittedBy.newline_not_mem {coordId : Text} {e : VolumeEvent} (h : e.EmittedBy coordId) :
    ∀ f ∈ e.commonFields U ++ kindFields U e.kind, '\n' ∉ f.2 := by
  have htexts := h.texts
  have hulid := newline_not_mem_toText U
  have hprev : '\n' ∉ (e.prevEventUlid.map U.toText).getD [] := by
    cases e.prevEventUlid with
    | none => exact not_mem_nil
    | some u => exact hulid u
  rw [VolumeEvent.texts, forall_mem_append] at htexts
  obtain ⟨hcommon, hkind⟩ := htexts
  have hname := hcommon e.name (by simp)
  have hcoord := hcommon e.coordinatorId (by simp)
  have hhost := hcommon (e.hostname.getD []) (by simp)
  rw [forall_mem_append]
  constructor
  · simp only [commonFields, forall_mem_cons, not_mem_nil, IsEmpty.forall_iff,
      implies_true, and_true]
    exact ⟨newline_not_mem_repr _, hulid _, hname, hcoord, hhost, hulid _, hprev,
      newline_not_mem_asStr _⟩
  · cases hk : e.kind <;> rw [hk] at hkind <;> simp_all [kindFields]

/-- **The payload of an emitted event fixes the event.** -/
theorem agrees_of_payload {coordId : Text} {e e' : VolumeEvent} (he' : e'.EmittedBy coordId)
    (h : e.signingPayload U = e'.signingPayload U) : e.Agrees e' := by
  have hfields := append_cancel_left h
  obtain ⟨hcommon, hkind⟩ := map_fst_fields U e
  obtain ⟨hcommon', hkind'⟩ := map_fst_fields U e'
  obtain ⟨hnodup, hkeys⟩ := keys_spec e'.kind.tag
  have hmem : ∀ f ∈ e'.commonFields U ++ kindFields U e'.kind,
      f.1 ∈ commonKeys ++ kindKeys e'.kind.tag := by
    intro f hf
    rw [← hkind']
    exact mem_map_of_mem hf
  have heq : ∀ f ∈ e'.commonFields U ++ kindFields U e'.kind, '=' ∉ f.1 := fun f hf =>
    (hkeys _ (hmem f hf)).1
  have hnl : ∀ f ∈ e'.commonFields U ++ kindFields U e'.kind, '\n' ∉ Text.field f := by
    intro f hf
    refine not_mem_append (hkeys _ (hmem f hf)).2 fun hc => ?_
    rcases mem_cons.mp hc with hc | hc
    · cases hc
    · exact he'.newline_not_mem U f hf hc
  have hnodup' : ((e'.commonFields U ++ kindFields U e'.kind).map Prod.fst).Nodup := by
    rw [map_append, hkind']
    exact hnodup
  -- the fields up to the kind, whose value has no newline
  obtain ⟨hsame, hrest⟩ := Text.tagged_field_inj (hcommon.trans hcommon'.symm) heq hnl hnodup'
    (fun _ f hf => by
      obtain rfl : ("kind".toList, e.kind.asStr) = f := by simpa [commonFields] using hf
      exact newline_not_mem_asStr _) hfields
  simp only [commonFields, List.cons.injEq, Prod.mk.injEq, true_and, and_true] at hsame
  obtain ⟨hversion, hulid, hname, hcoord, hhost, hvol, hprev, hstr⟩ := hsame
  have htag : e.kind.tag = e'.kind.tag := EventTag.asStr_injective hstr
  -- then those of the kind
  have hsub : ∀ f ∈ kindFields U e'.kind ++ [], f ∈ e'.commonFields U ++ kindFields U e'.kind := by
    intro f hf
    rw [append_nil] at hf
    exact mem_append_right _ hf
  obtain ⟨hkf, -⟩ := @Text.tagged_field_inj (kindFields U e.kind) (kindFields U e'.kind) [] []
    (by rw [hkind, hkind', htag]) (fun f hf => heq f (hsub f hf)) (fun f hf => hnl f (hsub f hf))
    (by
      rw [append_nil]
      rw [map_append] at hnodup'
      exact (nodup_append.mp hnodup').2.1)
    (fun hne => absurd rfl hne) (by simpa using hrest)
  have hinj := toText_injective U
  refine ⟨Nat.repr_inj.mp (String.toList_inj.mp hversion), hinj hulid, hname, hcoord, hhost,
    hinj hvol, ?_, kindAgrees_of_fields U he'.known htag hkf⟩
  cases hp : e.prevEventUlid with
  | none =>
    cases hp' : e'.prevEventUlid with
    | none => rfl
    | some u' =>
      rw [hp, hp'] at hprev
      exact absurd hprev.symm (U.toText_ne_nil u')
  | some u =>
    cases hp' : e'.prevEventUlid with
    | none =>
      rw [hp, hp'] at hprev
      exact absurd hprev (U.toText_ne_nil u)
    | some u' =>
      rw [hp, hp'] at hprev
      exact congrArg some (hinj hprev)

end Injective

end VolumeEvent

end Elide
