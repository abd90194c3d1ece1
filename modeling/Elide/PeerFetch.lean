import Elide.Lib.Run
import Elide.Names.Record

/-!
# Authorisation at a peer

A peer serves the files of a fork to the coordinator that `names/<volume>` names. It does not ask the
store at every request. A record is trusted for the validity period after it was verified; a bearer
whose record has passed is trusted for what is left of the bearer's own period; and so is a bearer
that was authorised for a fork. Each of the three is sound by itself, but they feed one another: a
record near the end of its period, handed to a bearer minted a moment ago, is good for a whole period
more. And a record counts as verified when the answer arrives, not when the store gave it.

So the bound is lost where an entry is made, not where one is met. `PeerAuth.Lapses` is a condition on
the steps that make entries: a record that names the displaced coordinator arrives before the rebind,
and what is made from it for a bearer expires within one period after the rebind. Under it the three
lifetimes compose (`PeerAuth.Lapsing`). Before the rebind every step meets it, since no bearer is good
for more than a period.

The caches of one name are modelled; those of another name have no entry in common with them. Records
are numbered as the store has had them. A call runs in one piece but for the two waits in it, for the
store's answer and for the lineage; one that fails takes no further step.

## Main results

* `PeerAuth.displaced_ends`: no call later than one period after a rebind is authorised, if the
  entries that are made lapse by then.
* `LateBearer.authorised_late`: a bearer minted just before the record's period ends.
-/

namespace Elide

open Option Function

/-- A token for the volume name. -/
structure PeerFetchToken where
  coordinatorId : Text
  issuedAt : ℕ

/-- How old a bearer may be. -/
def freshnessPastSecs : ℕ := 900

/-- How far ahead of the clock a bearer may be. -/
def freshnessFutureSecs : ℕ := 90

/-- For how long even a forced revalidation does not ask again. -/
def revalidationFloorSecs : ℕ := 60

/-- Whether the bearer was issued within the window. -/
def PeerFetchToken.checkFreshness (token : PeerFetchToken) (now : ℕ) : Bool :=
  if token.issuedAt > now then decide (token.issuedAt - now ≤ freshnessFutureSecs)
  else decide (now - token.issuedAt ≤ freshnessPastSecs)

/-- What a route asks of a bearer. -/
inductive RouteAuthMode where
  | skeletonsOnly
  | lineageGated
  deriving DecidableEq

/-- The record names a live claim of the coordinator. -/
def NameRecord.claimerCheck (record : NameRecord) (coordinatorId : Text) : Bool :=
  (record.state = .live || record.state = .stopped) && record.coordinatorId = some coordinatorId

/-- A record the store has had, by the number of the write that put it there. -/
structure VersionedName where
  record : NameRecord
  version : ℕ

/-- A cached record, with the store's tag for it. -/
structure NameRecordEntry where
  name : VersionedName
  etag : Option ℕ
  verifiedAt : ℕ

/-- A record found good for one bearer. -/
structure NameStepEntry where
  name : VersionedName
  expiresAt : ℕ

/-- What an authorisation is cached under. -/
structure VerifiedKey where
  bearer : Text
  volId : Ulid
  mode : RouteAuthMode
  deriving DecidableEq

/-- The coordinator authorised, and the record that was checked for it. -/
structure VerifiedEntry where
  coordinatorId : Text
  name : VersionedName
  expiresAt : ℕ

/-- A call under way, with the clock it read. -/
structure VerifyCall where
  key : VerifiedKey
  token : PeerFetchToken
  now : ℕ

/-- How far a call has come. -/
inductive VerifyStage where
  /-- The conditional GET is under way, with the entry whose tag it has. -/
  | asked (force : Bool) (cached : Option NameRecordEntry)
  /-- The store has answered, with nothing if it has no record. -/
  | answered (force : Bool) (answer : Option NameRecordEntry)
  /-- The record has passed; the lineage is walked. -/
  | checked (name : VersionedName)

/-- The record of an answer. -/
def VerifyStage.arrived : VerifyStage → Option NameRecordEntry
  | .answered _ answer => answer
  | _ => none

/-- Whether the record has passed. -/
def VerifyStage.passed : VerifyStage → Bool
  | .checked _ => true
  | _ => false

/-- A call that returns authorised. -/
structure Grant where
  coordinatorId : Text
  called : ℕ

/-- `names/<volume>` with the number of its writes, the three caches and the calls under way. -/
structure PeerAuth where
  clock : ℕ
  writes : ℕ
  stored : Option VersionedName
  nameRecord : Option NameRecordEntry
  nameStep : Text → Option NameStepEntry
  verified : VerifiedKey → Option VerifiedEntry
  calls : ℕ → Option (VerifyCall × VerifyStage)

/-- What happens at the peer. -/
inductive PeerAct where
  | tick (secs : ℕ)
  /-- A write or deletion of `names/<volume>`. -/
  | put (record : Option NameRecord)
  /-- A call made at `now` reaches the caches; `admitted` is the outcome of its signature check and
  of the rate limiter. -/
  | verify (i : ℕ) (key : VerifiedKey) (now : ℕ) (admitted : Bool)
  | answer (i : ℕ) (tagged : Bool)
  | receive (i : ℕ)
  | finish (i : ℕ) (inLineage : Bool)

namespace PeerAuth

/-- Nothing cached, nothing stored. -/
def new : PeerAuth := ⟨0, 0, none, none, fun _ => none, fun _ => none, fun _ => none⟩

variable (s : PeerAuth)

/-- The authorisation cached for the key. -/
def lookupCached (key : VerifiedKey) : Option VerifiedEntry :=
  (s.verified key).filter fun entry => s.clock < entry.expiresAt

/-- The record cached for the bearer. -/
def lookupNameStepCached (bearer : Text) : Option NameStepEntry :=
  (s.nameStep bearer).filter fun entry => s.clock < entry.expiresAt

variable (call : VerifyCall)

/-- What is left of the token's period, as of the call. -/
def remaining : ℕ :=
  freshnessPastSecs - ((call.now - call.token.issuedAt) + (call.token.issuedAt - call.now))

/-- Replace the call `i`. -/
def setCall (i : ℕ) (stage : Option (VerifyCall × VerifyStage)) : PeerAuth :=
  { s with calls := update s.calls i stage }

/-- Cache the record for the rest of the bearer's life. -/
def cacheNameStep (name : VersionedName) : PeerAuth :=
  if remaining call = 0 then s
  else
    { s with
      nameStep :=
        update s.nameStep call.key.bearer (some ⟨name, s.clock + remaining call⟩) }

/-- Cache the authorisation for as long, dropping what has expired. -/
def cacheAuthorized (name : VersionedName) : PeerAuth :=
  if remaining call = 0 then s
  else
    { s with
      verified :=
        update (fun key => (s.verified key).filter fun entry => s.clock < entry.expiresAt)
          call.key (some ⟨call.token.coordinatorId, name, s.clock + remaining call⟩) }

/-- The cached record, within its period or, when revalidation is forced, within the floor. -/
def trustedRecord (force : Bool) : Option NameRecordEntry :=
  s.nameRecord.filter fun entry =>
    s.clock - entry.verifiedAt < if force then revalidationFloorSecs else freshnessPastSecs

/-- The record of a call is passed or refused; a refused one is revalidated once. -/
def check (i : ℕ) (call : VerifyCall) (force : Bool) (name : VersionedName) : PeerAuth :=
  if name.record.claimerCheck call.token.coordinatorId then
    (s.cacheNameStep call name).setCall i (some (call, .checked name))
  else if force then s.setCall i none
  else
    match s.trustedRecord true with
    | none => s.setCall i (some (call, .asked true s.nameRecord))
    | some entry =>
      if entry.name.record.claimerCheck call.token.coordinatorId then
        (s.cacheNameStep call entry.name).setCall i (some (call, .checked entry.name))
      else s.setCall i none

variable (decode : Text → Option PeerFetchToken)

/-- Steps 1 and 2 of `verify`: the token of a fresh call. -/
def freshToken? (i : ℕ) (key : VerifiedKey) (now : ℕ) (admitted : Bool) : Option PeerFetchToken :=
  (decode key.bearer).filter fun token =>
    (s.calls i).isNone && decide (now ≤ s.clock) && token.checkFreshness now && admitted

/-- Step 3 of a call that is not in the cache, up to its first wait. -/
def ownership (i : ℕ) (call : VerifyCall) : PeerAuth :=
  match s.lookupNameStepCached call.key.bearer with
  | some entry =>
    if entry.name.record.claimerCheck call.token.coordinatorId then
      s.setCall i (some (call, .checked entry.name))
    else s
  | none =>
    match s.trustedRecord false with
    | some entry => s.check i call false entry.name
    | none => s.setCall i (some (call, .asked false s.nameRecord))

/-- Step 4: the lineage is asked for, and is not that of the fork. -/
def outsideLineage (inLineage : Bool) : Bool :=
  call.key.mode = .lineageGated && !inLineage

/-- What a GET with the tag of `cached` is answered: the record, or that it is unchanged. -/
def respond (cached : Option NameRecordEntry) (tagged : Bool) : Option NameRecordEntry :=
  s.stored.map fun name =>
    match cached.filter fun entry => entry.etag = some name.version with
    | some entry => entry
    | none => ⟨name, if tagged then some name.version else none, 0⟩

/-- One action. -/
def step (s : PeerAuth) : PeerAct → PeerAuth
  | .tick secs => { s with clock := s.clock + secs }
  | .put record =>
    { s with writes := s.writes + 1, stored := record.map fun r => ⟨r, s.writes + 1⟩ }
  | .verify i key now admitted =>
    match s.freshToken? decode i key now admitted, s.lookupCached key with
    | some token, none => s.ownership i ⟨key, token, now⟩
    | _, _ => s
  | .answer i tagged =>
    match s.calls i with
    | some (call, .asked force cached) =>
      s.setCall i (some (call, .answered force (s.respond cached tagged)))
    | _ => s
  | .receive i =>
    match s.calls i with
    | some (call, .answered force (some entry)) =>
      -- verified as of now, whenever the store gave the answer
      { s with nameRecord := some { entry with verifiedAt := s.clock } }.check i call force entry.name
    | some (_, .answered _ none) => s.setCall i none
    | _ => s
  | .finish i inLineage =>
    match s.calls i with
    | some (call, .checked name) =>
      if outsideLineage call inLineage then s.setCall i none
      else (s.cacheAuthorized call name).setCall i none
    | _ => s

/-- What a step authorises: a call that is in the cache, or one that has passed all four. -/
def authorized? (s : PeerAuth) : PeerAct → Option Grant
  | .verify i key now admitted =>
    match s.freshToken? decode i key now admitted, s.lookupCached key with
    | some _, some entry => some ⟨entry.coordinatorId, now⟩
    | _, _ => none
  | .finish i inLineage =>
    match s.calls i with
    | some (call, .checked _) =>
      if outsideLineage call inLineage then none else some ⟨call.token.coordinatorId, call.now⟩
    | _ => none
  | _ => none

variable {decode : Text → Option PeerFetchToken} {s : PeerAuth} {a : PeerAct} {n t : ℕ} {c : Text}

/-- The `n`-th write of the name is at `t`, and neither it nor a later one names `c`. -/
def Rebinds (n t : ℕ) (c : Text) (s : PeerAuth) : PeerAct → Prop
  | .tick secs => s.writes < n → s.clock + secs ≤ t
  | .put record =>
    (s.writes + 1 = n → s.clock = t) ∧ (n ≤ s.writes + 1 → ∀ r ∈ record, r.claimerCheck c = false)
  | _ => True

instance : Decidable (Rebinds n t c s a) :=
  match a with
  | .tick _ => inferInstanceAs (Decidable (_ → _))
  | .put record => inferInstanceAs (Decidable ((_ → _) ∧ (_ → ∀ r ∈ record, _)))
  | .verify .. | .answer .. | .receive _ | .finish .. => instDecidableTrue

/-- No call of `c` made more than a period after `t` is authorised. -/
def Ended (t : ℕ) (c : Text) (decode : Text → Option PeerFetchToken) (s : PeerAuth) (a : PeerAct) :
    Prop :=
  ∀ g ∈ s.authorized? decode a, g.coordinatorId = c → g.called ≤ t + freshnessPastSecs

instance : Decidable (Ended t c decode s a) :=
  inferInstanceAs (Decidable (∀ g ∈ s.authorized? decode a, _))

/-! ### Where entries are made -/

/-- What is cached now for a call of `c`, made within a period after `t`, expires within it. -/
def ExpiresBy (t : ℕ) (c : Text) (s : PeerAuth) (call : VerifyCall) : Prop :=
  call.token.coordinatorId = c → call.now ≤ t + freshnessPastSecs →
    s.clock + remaining call ≤ t + freshnessPastSecs

instance (call : VerifyCall) : Decidable (ExpiresBy t c s call) :=
  inferInstanceAs (Decidable (_ → _ → _))

/-- The entries a step makes from a record that names `c`. A record itself is kept for a period after
it arrives, so it must arrive by `t`; what is made for a bearer is kept for the bearer's own period,
which is cut short only where the bearer is as old as the rebind. -/
def Lapses (t : ℕ) (c : Text) (decode : Text → Option PeerFetchToken) (s : PeerAuth) :
    PeerAct → Prop
  | .verify i key now admitted =>
    ∀ token ∈ s.freshToken? decode i key now admitted, (s.lookupCached key).isNone = true →
      (s.lookupNameStepCached key.bearer).isNone = true → ∀ e ∈ s.trustedRecord false,
        e.name.record.claimerCheck c = true → ExpiresBy t c s ⟨key, token, now⟩
  | .receive i =>
    ∀ p ∈ s.calls i, ∀ e ∈ p.2.arrived, e.name.record.claimerCheck c = true → s.clock ≤ t
  | .finish i inLineage =>
    ∀ p ∈ s.calls i, p.2.passed = true → outsideLineage p.1 inLineage = false →
      ExpiresBy t c s p.1
  | _ => True

instance : Decidable (Lapses t c decode s a) :=
  match a with
  | .verify .. => inferInstanceAs (Decidable (∀ token ∈ s.freshToken? decode _ _ _ _, _))
  | .receive i | .finish i _ => inferInstanceAs (Decidable (∀ p ∈ s.calls i, _))
  | .tick _ | .put _ | .answer .. => instDecidableTrue

/-! ### What the caches hold -/

/-- From the `n`-th on, no record names `c`. -/
def NotSince (n : ℕ) (c : Text) (v : VersionedName) : Prop :=
  n ≤ v.version → v.record.claimerCheck c = false

/-- A record as the store had it, under the tag of that write. -/
def Tagged (n : ℕ) (c : Text) (e : NameRecordEntry) : Prop :=
  (∀ v ∈ e.etag, v = e.name.version) ∧ NotSince n c e.name

/-- A call of `c` made more than a period after `t`. -/
def Late (t : ℕ) (c : Text) (call : VerifyCall) : Prop :=
  call.token.coordinatorId = c ∧ t + freshnessPastSecs < call.now

/-- A late call is answered with a record that does not name `c`, and never passes. -/
def StageOk (n t : ℕ) (c : Text) (call : VerifyCall) : VerifyStage → Prop
  | .asked _ cached => ∀ e ∈ cached, Tagged n c e
  | .answered _ answer =>
    ∀ e ∈ answer, Tagged n c e ∧ (Late t c call → e.name.record.claimerCheck c = false)
  | .checked _ => ¬ Late t c call

/-- Whatever rests on a record that names `c`, in any of the caches, has gone a period after `t`. -/
structure Lapsing (n t : ℕ) (c : Text) (decode : Text → Option PeerFetchToken) (s : PeerAuth) :
    Prop where
  rebound : s.writes < n → s.clock ≤ t
  stored : ∀ v ∈ s.stored, v.version = s.writes ∧ NotSince n c v
  nameRecord : ∀ e ∈ s.nameRecord,
    Tagged n c e ∧ (e.name.record.claimerCheck c = true → e.verifiedAt ≤ t)
  nameStep : ∀ b, ∀ e ∈ s.nameStep b, ∀ token ∈ decode b, token.coordinatorId = c →
    e.name.record.claimerCheck c = true → e.expiresAt ≤ t + freshnessPastSecs
  verified : ∀ k, ∀ e ∈ s.verified k, e.coordinatorId = c → e.expiresAt ≤ t + freshnessPastSecs
  calls : ∀ i, ∀ p ∈ s.calls i, decode p.1.key.bearer = some p.1.token ∧ p.1.now ≤ s.clock ∧
    StageOk n t c p.1 p.2

theorem forall_mem_update {α β : Type} [DecidableEq α] {f : α → Option β} {P : β → Prop} {a : α}
    {y : Option β} (hf : ∀ a, ∀ x ∈ f a, P x) (hy : ∀ x ∈ y, P x) :
    ∀ b, ∀ x ∈ update f a y b, P x :=
  (forall_update_iff f fun _ o => ∀ x ∈ o, P x).mpr ⟨hy, fun b _ => hf b⟩

variable {i : ℕ} {call : VerifyCall} {name : VersionedName} {e : NameRecordEntry}

/-- What is trusted when revalidation is forced is trusted otherwise. -/
theorem trustedRecord_false (he : e ∈ s.trustedRecord true) : e ∈ s.trustedRecord false := by
  obtain ⟨hmem, hage⟩ := mem_filter_iff.mp he
  refine mem_filter_iff.mpr ⟨hmem, ?_⟩
  simp only [if_true, Bool.false_eq_true, if_false, decide_eq_true_eq, revalidationFloorSecs,
    freshnessPastSecs] at hage ⊢
  omega

namespace Lapsing

section

variable (h : s.Lapsing n t c decode)
include h

theorem setCall {stage : VerifyStage} (hdecode : decode call.key.bearer = some call.token)
    (hnow : call.now ≤ s.clock) (hstage : StageOk n t c call stage) :
    (s.setCall i (some (call, stage))).Lapsing n t c decode :=
  { h with
    calls := forall_mem_update h.calls fun _ hp =>
      mem_some_iff.mp hp ▸ ⟨hdecode, hnow, hstage⟩ }

theorem clear : (s.setCall i none).Lapsing n t c decode :=
  { h with calls := forall_mem_update h.calls (by rintro _ ⟨⟩) }

/-- A trusted record that names `c` is not met by a late call. -/
theorem not_late_of_trusted (hnow : call.now ≤ s.clock) (he : e ∈ s.trustedRecord false)
    (hc : e.name.record.claimerCheck call.token.coordinatorId = true) : ¬ Late t c call := by
  rintro ⟨rfl, hlate⟩
  obtain ⟨hmem, hage⟩ := mem_filter_iff.mp he
  have hverified := (h.nameRecord e hmem).2 hc
  simp only [Bool.false_eq_true, if_false, decide_eq_true_eq] at hage
  omega

/-- A call passes with a record: its bearer is in the cache for as long as the bearer is good. -/
theorem pass (hdecode : decode call.key.bearer = some call.token) (hnow : call.now ≤ s.clock)
    (hlate : ¬ Late t c call) (huntil : ExpiresBy t c s call) :
    ((s.cacheNameStep call name).setCall i (some (call, .checked name))).Lapsing n t c decode := by
  rw [cacheNameStep]
  split_ifs
  · exact h.setCall hdecode hnow hlate
  · have hs : Lapsing n t c decode { s with
        nameStep := update s.nameStep call.key.bearer (some ⟨name, s.clock + remaining call⟩) } := by
      refine { h with nameStep := (forall_update_iff s.nameStep fun b o => ∀ e ∈ o,
        ∀ token ∈ decode b, token.coordinatorId = c → e.name.record.claimerCheck c = true →
          e.expiresAt ≤ t + freshnessPastSecs).mpr ?_ }
      refine ⟨fun e he token htoken hc _ => ?_, fun b _ => h.nameStep b⟩
      cases mem_some_iff.mp he
      cases hdecode.symm.trans htoken
      exact huntil hc (not_lt.mp fun hlt => hlate ⟨hc, hlt⟩)
    exact hs.setCall hdecode hnow hlate

theorem check {force : Bool} (hdecode : decode call.key.bearer = some call.token)
    (hnow : call.now ≤ s.clock)
    (hname : name.record.claimerCheck call.token.coordinatorId = true →
      ¬ Late t c call ∧ ExpiresBy t c s call)
    (hagain : ∀ e ∈ s.trustedRecord false,
      e.name.record.claimerCheck call.token.coordinatorId = true → ExpiresBy t c s call) :
    (s.check i call force name).Lapsing n t c decode := by
  rw [PeerAuth.check]
  split_ifs with hcheck
  · exact h.pass hdecode hnow (hname hcheck).1 (hname hcheck).2
  · exact h.clear
  · cases htrust : s.trustedRecord true with
    | none => exact h.setCall hdecode hnow fun e he => (h.nameRecord e he).1
    | some e =>
      have he := trustedRecord_false htrust
      dsimp only
      split_ifs with hcheck'
      · exact h.pass hdecode hnow (h.not_late_of_trusted hnow he hcheck') (hagain e he hcheck')
      · exact h.clear

theorem ownership (hdecode : decode call.key.bearer = some call.token) (hnow : call.now ≤ s.clock)
    (huntil : s.lookupNameStepCached call.key.bearer = none → ∀ e ∈ s.trustedRecord false,
      e.name.record.claimerCheck call.token.coordinatorId = true → ExpiresBy t c s call) :
    (s.ownership i call).Lapsing n t c decode := by
  rw [PeerAuth.ownership]
  cases hstep : s.lookupNameStepCached call.key.bearer with
  | some e =>
    dsimp only
    split_ifs with hcheck
    · refine h.setCall hdecode hnow ?_
      -- an entry from a record that names `c` has expired
      rintro ⟨rfl, hlate⟩
      obtain ⟨hmem, hfresh⟩ := mem_filter_iff.mp hstep
      have hexpires := h.nameStep _ e hmem _ hdecode rfl hcheck
      simp only [decide_eq_true_eq] at hfresh
      omega
    · exact h
  | none =>
    cases htrust : s.trustedRecord false with
    | some e =>
      exact h.check hdecode hnow
        (fun hc => ⟨h.not_late_of_trusted hnow htrust hc, huntil hstep e htrust hc⟩) (huntil hstep)
    | none => exact h.setCall hdecode hnow fun e he => (h.nameRecord e he).1

theorem cacheAuthorized (hlate : ¬ Late t c call) (huntil : ExpiresBy t c s call) :
    (s.cacheAuthorized call name).Lapsing n t c decode := by
  rw [PeerAuth.cacheAuthorized]
  split_ifs
  · exact h
  · refine { h with verified := forall_mem_update (fun k e he => ?_) fun e he hc => ?_ }
    · exact h.verified k e (mem_filter_iff.mp he).1
    · cases mem_some_iff.mp he
      exact huntil hc (not_lt.mp fun hlt => hlate ⟨hc, hlt⟩)

/-- What the store answers after the rebind does not name `c`. -/
theorem respond {cached : Option NameRecordEntry} {tagged : Bool}
    (hcached : ∀ e ∈ cached, Tagged n c e) (hnow : call.now ≤ s.clock) :
    ∀ e ∈ s.respond cached tagged,
      Tagged n c e ∧ (Late t c call → e.name.record.claimerCheck c = false) := by
  intro e he
  obtain ⟨v, hv, rfl⟩ := map_eq_some_iff.mp he
  obtain ⟨hversion, hsince⟩ := h.stored v hv
  have hrebound : Late t c call → n ≤ s.writes := by
    rintro ⟨-, hlate⟩
    by_contra hlt
    have := h.rebound (not_le.mp hlt)
    omega
  cases hsame : cached.filter fun entry => entry.etag = some v.version with
  | some e =>
    obtain ⟨hmem, htag⟩ := mem_filter_iff.mp hsame
    have hok := hcached e hmem
    have heq : v.version = e.name.version := hok.1 _ (of_decide_eq_true htag)
    exact ⟨hok, fun hlate => hok.2 (heq ▸ hversion ▸ hrebound hlate)⟩
  | none =>
    refine ⟨⟨fun w hw => ?_, hsince⟩, fun hlate => hsince (hversion ▸ hrebound hlate)⟩
    dsimp only at hw
    split_ifs at hw
    · exact (mem_some_iff.mp hw).symm
    · cases hw

/-- A step that makes no entry for `c` which outlasts the period keeps it so. -/
theorem step (hre : Rebinds n t c s a) (hla : Lapses t c decode s a) :
    (s.step decode a).Lapsing n t c decode := by
  cases a with
  | tick secs =>
    exact { h with
      rebound := hre
      calls := fun i p hp => (h.calls i p hp).imp_right (.imp_left fun hnow => by
        simp only [PeerAuth.step]; omega) }
  | put record =>
    refine { h with rebound := fun hlt => h.rebound (Nat.lt_of_succ_lt hlt), stored := ?_ }
    intro v hv
    obtain ⟨r, hr, rfl⟩ := map_eq_some_iff.mp hv
    exact ⟨rfl, fun hle => hre.2 hle r hr⟩
  | verify i key now admitted =>
    simp only [PeerAuth.step]
    split
    · next token htoken hmiss =>
      obtain ⟨hdecode, hfresh⟩ := mem_filter_iff.mp htoken
      simp only [Bool.and_eq_true, decide_eq_true_eq] at hfresh
      refine h.ownership hdecode hfresh.1.1.2 fun hstep e he hcheck hc hnow => ?_
      exact hla token htoken (by rw [hmiss]; rfl) (by rw [hstep]; rfl) e he (hc ▸ hcheck) hc hnow
    · exact h
  | answer i tagged =>
    simp only [PeerAuth.step]
    split
    · next call force cached hcall =>
      obtain ⟨hdecode, hnow, hstage⟩ := h.calls i _ hcall
      exact h.setCall hdecode hnow (h.respond hstage hnow)
    · exact h
  | receive i =>
    simp only [PeerAuth.step]
    split
    · next call force e hcall =>
      obtain ⟨hdecode, hnow, hstage⟩ := h.calls i _ hcall
      obtain ⟨htagged, hlate⟩ := hstage e rfl
      have hs : Lapsing n t c decode
          { s with nameRecord := some { e with verifiedAt := s.clock } } :=
        { h with nameRecord := fun _ hx => mem_some_iff.mp hx ▸ ⟨htagged, hla _ hcall e rfl⟩ }
      have huntil : e.name.record.claimerCheck call.token.coordinatorId = true →
          ExpiresBy t c { s with nameRecord := some { e with verifiedAt := s.clock } } call := by
        intro hcheck hc _
        have hclock := hla _ hcall e rfl (hc ▸ hcheck)
        simp only [remaining]
        omega
      refine hs.check hdecode hnow (fun hcheck => ⟨fun hl => ?_, huntil hcheck⟩) ?_
      · have := hlate hl
        rw [← hl.1, hcheck] at this
        cases this
      · intro e' he' hcheck
        obtain rfl := mem_some_iff.mp (mem_filter_iff.mp he').1
        exact huntil hcheck
    · exact h.clear
    · exact h
  | finish i inLineage =>
    simp only [PeerAuth.step]
    split
    · next call name hcall =>
      split_ifs with hout
      · exact h.clear
      · exact (h.cacheAuthorized (h.calls i _ hcall).2.2
          (hla _ hcall rfl (Bool.eq_false_of_not_eq_true hout))).clear
    · exact h

theorem ended : Ended t c decode s a := by
  intro g hg hc
  cases a with
  | verify i key now admitted =>
    simp only [authorized?] at hg
    split at hg
    · next token e htoken hcached =>
      obtain ⟨-, hfresh⟩ := mem_filter_iff.mp htoken
      obtain ⟨hmem, hlive⟩ := mem_filter_iff.mp hcached
      obtain rfl := mem_some_iff.mp hg
      have hexpires := h.verified key e hmem hc
      simp only [Bool.and_eq_true, decide_eq_true_eq] at hfresh hlive
      dsimp only
      omega
    · cases hg
  | finish i inLineage =>
    simp only [authorized?] at hg
    split at hg
    · next call name hcall =>
      split_ifs at hg
      · cases hg
      · obtain rfl := mem_some_iff.mp hg
        exact not_lt.mp fun hlate => (h.calls i _ hcall).2.2 ⟨hc, hlate⟩
    · cases hg
  | _ => cases hg

end

end Lapsing

/-- **A displaced coordinator's reads end.** Where `names/<volume>` is rebound away from `c` at `t`,
in every run in which a record that names `c` arrives by `t`, and no entry made for a bearer of `c`
outlasts a period after `t`, no call of `c` made later than that is authorised, whatever the three
caches held and in whatever order answers came. -/
theorem displaced_ends (decode : Text → Option PeerFetchToken) {as : List PeerAct}
    (has : Run.Each (step decode) (fun s a => Rebinds n t c s a ∧ Lapses t c decode s a) new as) :
    Run.Each (step decode) (Ended t c decode) new as := by
  have hstart : new.Lapsing n t c decode := by
    refine ⟨fun _ => Nat.zero_le t, ?_, ?_, ?_, ?_, ?_⟩ <;> intros <;> contradiction
  exact (Run.always_of_each (fun s a h ha => h.step ha.1 ha.2) hstart has).each fun s a h => h.ended

end PeerAuth

/-! ### A bearer minted at the end of the record's period -/

namespace LateBearer

open PeerAuth

/-- The coordinator that is displaced. -/
def owner : Text := "a".toList

/-- A record of volume 7, live under a coordinator. -/
def record (coordinatorId : Text) : NameRecord :=
  ⟨7, 0, some coordinatorId, .live, none, none, none, none, none⟩

/-- The bearer `1` is minted at 1000, every other at 1899. -/
def decode (bearer : Text) : Option PeerFetchToken :=
  some ⟨owner, if bearer = "1".toList then 1000 else 1899⟩

/-- A bearer's key for volume 7. -/
def key (bearer : String) : VerifiedKey := ⟨bearer.toList, 7, .skeletonsOnly⟩

/-- A call of the owner at 1000, by which its record is cached, and the rebind at 1001. -/
abbrev rebindThen (as : List PeerAct) : List PeerAct :=
  .put (some (record owner)) :: .tick 1000 :: .verify 0 (key "1") 1000 true :: .answer 0 true ::
    .receive 0 :: .tick 1 :: .put (some (record "b".toList)) :: as

/-- The record is good until 1900; at 1899 it is handed to a bearer good until 2799. -/
theorem authorised_late :
    let as := rebindThen [.tick 898, .verify 1 (key "2") 1899 true, .finish 1 true, .tick 101,
      .verify 2 (key "2") 2000 true]
    Run.Each (step decode) (Rebinds 2 1001 owner) new as ∧
      ¬ Run.Each (step decode) (Ended 1001 owner decode) new as := by
  decide +kernel

/-- At 1500 the old record is handed to the bearer `1`, which was minted before the rebind: the call is
authorised, and the entries made for it are gone at 1900. The other bearer, first met at 2000, finds
the new record and is refused. -/
theorem refused_late :
    let as := rebindThen [.tick 499, .verify 1 (key "1") 1500 true, .finish 1 true, .tick 500,
      .verify 2 (key "2") 2000 true, .answer 2 true, .receive 2]
    Run.Each (step decode) (Ended 1001 owner decode) new as ∧
      (((rebindThen [.tick 499, .verify 1 (key "1") 1500 true]).foldl (step decode) new).authorized?
        decode (.finish 1 true)).isSome = true :=
  ⟨displaced_ends (n := 2) decode (by decide +kernel), by decide +kernel⟩

end LateBearer

end Elide
