import Elide.Lib.Run
import Elide.Names.Record
import Elide.Provenance.Basic

/-!
# Possession proofs

A coordinator proves that it holds the key of a volume by a signature over the volume, the target,
the ticket, a time and a nonce, and the authority discharges the ticket. A proof should serve once.
The signature is checked over values read from the request's texts; what the authority remembers,
for twice the skew it tolerates, is the texts of the volume and of the nonce. A proof that comes back
is within the skew of its own time at both visits, so the first visit is still remembered. It is
found if the texts are the same, which the values do not say: a nonce in upper case is the same.

## Main results

* `DischargeAuthority.discharged_once_iff`: no proof is accepted twice exactly if a repeated proof
  that is otherwise in order is spelled like a visit of the last two skews; it is enough that it is
  spelled as it was when it was accepted.
* `RespelledNonce.accepted_twice`: a nonce in lower and in upper case.
-/

namespace Elide

open List Prod

/-- The body of a discharge call, as the client sends it. -/
structure DischargeRequest where
  cid : Text
  name : Text
  owned : Text
  target : Text
  ts : ℕ
  nonce : Text
  proof : Text

/-- How the volume and the nonce are written. -/
def DischargeRequest.spelling (req : DischargeRequest) : Text × Text := (req.owned, req.nonce)

/-- Why a call is refused. -/
inductive DischargeError where
  | malformed (what : Text)
  | denied (what : Text)
  | backend

/-- The values a possession proof signs. -/
structure PossessionMessage where
  owned : Ulid
  target : Ulid
  cid : List UInt8
  ts : ℕ
  nonce : List UInt8
  deriving DecidableEq

/-- What the authority recovers from a caveat id. -/
structure RecoveredCid where
  r : List UInt8
  mode : Text

/-- What the authority computes with. -/
structure DischargeAuthority (Key : Type) where
  ulids : UlidText
  decryptCid : List UInt8 → Option RecoveredCid
  verifyPossession : Key → PossessionMessage → List UInt8 → Bool

/-- A request, the time it is handled at and what the store answers meanwhile. -/
structure DischargeCall (Key : Type) where
  req : DischargeRequest
  now : ℕ
  volumePub : Ulid → Except DischargeError Key
  nameRecord : Text → Except DischargeError NameRecord
  lineageSet : Ulid → Key → Option (List Ulid)

/-- The macaroon for a ticket. -/
structure Discharge where
  r : List UInt8
  cid : List UInt8
  volume : Ulid
  exp : ℕ

/-- How far a request's time may be from the clock. -/
def defaultSkewSecs : ℕ := 30

/-- How long a discharge to write is good for. -/
def volumeRwDischargeTtlSecs : ℕ := 300

/-- How long a discharge to read is good for. -/
def volumeRoDischargeTtlSecs : ℕ := 3600

/-- The texts of the volume and the nonce of a request, with the time they were recorded. -/
abbrev SeenCache := List ((Text × Text) × ℕ)

namespace DischargeAuthority

variable {Key : Type} (auth : DischargeAuthority Key)

/-- The values of a request and its proof. -/
def parse (req : DischargeRequest) : Except DischargeError (PossessionMessage × List UInt8) := do
  let hex := fun (t what : Text) => (decodeHex t).mapError fun _ => DischargeError.malformed what
  let ulid := fun (t what : Text) =>
    (auth.ulids.fromText t).mapError fun _ => DischargeError.malformed what
  let cid ← hex req.cid "cid not hex".toList
  let nonce ← hex req.nonce "nonce not hex".toList
  let proof ← hex req.proof "proof not hex".toList
  if proof.length = 64 then
    let owned ← ulid req.owned "owned not a ulid".toList
    let target ← ulid req.target "target not a ulid".toList
    return (⟨owned, target, cid, req.ts, nonce⟩, proof)
  else throw (.malformed "proof not 64 bytes".toList)

variable (c : DischargeCall Key)

/-- The checks before the nonce: the ticket and the time. -/
def recover :
    Except DischargeError (PossessionMessage × List UInt8 × RecoveredCid) := do
  let (m, proof) ← auth.parse c.req
  match auth.decryptCid m.cid with
  | none => throw (.denied "cid".toList)
  | some recovered =>
    if (c.now - m.ts) + (m.ts - c.now) > defaultSkewSecs then throw (.denied "stale".toList)
    else return (m, proof, recovered)

/-- `seen.retain`. -/
def retained (now : ℕ) (seen : SeenCache) : SeenCache :=
  seen.filter fun e => decide (now - e.2 ≤ 2 * defaultSkewSecs)

/-- The cache afterwards, and whether the texts were new. -/
def checkAndRecordNonce (key : Text × Text) (now : ℕ) (seen : SeenCache) : SeenCache × Bool :=
  if key ∈ (retained now seen).map fst then (retained now seen, false)
  else ((key, now) :: retained now seen, true)

/-- The checks after the nonce is recorded: mode, possession, liveness, read set. -/
def grant (m : PossessionMessage) (proof : List UInt8)
    (recovered : RecoveredCid) : Except DischargeError Discharge := do
  let denied := fun (what : String) => DischargeError.denied what.toList
  let rw := decide (recovered.mode = "volume-rw".toList)
  if rw ∧ m.target ≠ m.owned then throw (denied "target != owned")
  else if ¬ rw ∧ recovered.mode ≠ "volume-ro".toList then throw (denied "unknown mode")
  else
    let key ← c.volumePub m.owned
    if auth.verifyPossession key m proof = false then throw (denied "possession")
    else
      let record ← c.nameRecord c.req.name
      if record.volUlid ≠ m.owned ∨ record.state = .released then throw (denied "liveness")
      else if rw then return ⟨recovered.r, m.cid, m.target, c.now + volumeRwDischargeTtlSecs⟩
      else
        match c.lineageSet m.owned key with
        | none => throw (denied "lineage")
        | some readSet =>
          if m.target ∈ readSet then
            return ⟨recovered.r, m.cid, m.target, c.now + volumeRoDischargeTtlSecs⟩
          else throw (denied "target not in read set")

/-- The endpoint: recover, record the nonce, grant. -/
def discharge (seen : SeenCache) : SeenCache × Except DischargeError Discharge :=
  match auth.recover c with
  | .error e => (seen, .error e)
  | .ok (m, proof, recovered) =>
    match checkAndRecordNonce c.req.spelling c.now seen with
    | (seen, false) => (seen, .error (.denied "replay".toList))
    | (seen, true) => (seen, auth.grant c m proof recovered)

end DischargeAuthority

/-- A request that was accepted. -/
structure AcceptedProof where
  message : PossessionMessage
  spelling : Text × Text
  time : ℕ

/-- The authority with what it has accepted. -/
structure DischargeHistory where
  seen : SeenCache
  clock : ℕ
  accepted : List AcceptedProof

namespace DischargeAuthority

variable {Key : Type} (auth : DischargeAuthority Key) (s : DischargeHistory) (c : DischargeCall Key)

/-- One call; an accepted one is remembered with its nonce and time. -/
def step : DischargeHistory where
  seen := (auth.discharge c s.seen).1
  clock := c.now
  accepted :=
    match auth.recover c, (auth.discharge c s.seen).2 with
    | .ok (m, _), .ok _ => ⟨m, c.req.spelling, c.now⟩ :: s.accepted
    | _, _ => s.accepted

/-- The clock does not go back. -/
def Forward : Prop := s.clock ≤ c.now

/-- No two accepted proofs sign the same values. -/
def Once : Prop := (s.accepted.map AcceptedProof.message).Nodup

/-- The request signs `m` and passes every check but that of its nonce. -/
def Grants (m : PossessionMessage) : Prop :=
  ∃ proof recovered d, auth.recover c = .ok (m, proof, recovered) ∧
    auth.grant c m proof recovered = .ok d

/-- A repeated proof is spelled like a visit that is remembered. -/
def Recognised : Prop :=
  ∀ m, auth.Grants c m → m ∈ s.accepted.map AcceptedProof.message →
    c.req.spelling ∈ (retained c.now s.seen).map fst

/-- A repeated proof is spelled as it was when it was accepted. -/
def SpelledAlike : Prop :=
  ∀ m, auth.Grants c m → ∀ x ∈ s.accepted, x.message = m → x.spelling = c.req.spelling

/-- What is accepted was fresh, and is remembered for twice the skew. -/
def Remembers : Prop :=
  ∀ x ∈ s.accepted, (x.time - x.message.ts) + (x.message.ts - x.time) ≤ defaultSkewSecs ∧
    (s.clock ≤ x.time + 2 * defaultSkewSecs → (x.spelling, x.time) ∈ s.seen)

variable {auth} {s : DischargeHistory} {c : DischargeCall Key}

theorem mem_retained {now : ℕ} {e : (Text × Text) × ℕ} :
    e ∈ retained now s.seen ↔ e ∈ s.seen ∧ now - e.2 ≤ 2 * defaultSkewSecs := by
  rw [retained, mem_filter, decide_eq_true_eq]

theorem Grants.fresh {m : PossessionMessage} (h : auth.Grants c m) :
    (c.now - m.ts) + (m.ts - c.now) ≤ defaultSkewSecs := by
  obtain ⟨proof, recovered, -, hrecover, -⟩ := h
  obtain ⟨p, hparse, hrecover⟩ := Run.exists_of_bind_ok hrecover
  dsimp only [bind, Except.bind] at hrecover
  split at hrecover
  · cases hrecover
  · split_ifs at hrecover with hstale
    cases hrecover
    exact not_lt.mp hstale

/-- **What a request does.** It is accepted and recorded, or it is not accepted, was recognised if
nothing else was wrong with it, and leaves what is to be remembered. -/
theorem step_cases (auth : DischargeAuthority Key) (s : DischargeHistory) (c : DischargeCall Key) :
    (∃ m, auth.Grants c m ∧ c.req.spelling ∉ (retained c.now s.seen).map fst ∧
      (auth.step s c).seen = (c.req.spelling, c.now) :: retained c.now s.seen ∧
      (auth.step s c).accepted = ⟨m, c.req.spelling, c.now⟩ :: s.accepted) ∨
    ((∀ m, auth.Grants c m → c.req.spelling ∈ (retained c.now s.seen).map fst) ∧
      (∀ e ∈ retained c.now s.seen, e ∈ (auth.step s c).seen) ∧
      (auth.step s c).accepted = s.accepted) := by
  cases hrecover : auth.recover c with
  | error e =>
    have hd : auth.discharge c s.seen = (s.seen, .error e) := by rw [discharge, hrecover]
    refine .inr ⟨fun m ⟨_, _, _, h, _⟩ => by simp [hrecover] at h, fun e he => ?_, ?_⟩
    · rw [step, hd]
      exact (mem_retained.mp he).1
    · rw [step, hrecover]
  | ok p =>
    obtain ⟨m, proof, recovered⟩ := p
    by_cases hkey : c.req.spelling ∈ (retained c.now s.seen).map fst
    · have hd : auth.discharge c s.seen =
          (retained c.now s.seen, .error (.denied "replay".toList)) := by
        simp [discharge, hrecover, checkAndRecordNonce, if_pos hkey]
      refine .inr ⟨fun _ _ => hkey, fun e he => ?_, ?_⟩
      · rw [step, hd]
        exact he
      · simp [step, hd]
    · have hd : auth.discharge c s.seen = ((c.req.spelling, c.now) :: retained c.now s.seen,
          auth.grant c m proof recovered) := by
        simp [discharge, hrecover, checkAndRecordNonce, if_neg hkey]
      cases hgrant : auth.grant c m proof recovered with
      | ok d =>
        refine .inl ⟨m, ⟨proof, recovered, d, hrecover, hgrant⟩, hkey, ?_, ?_⟩
        · rw [step, hd]
        · simp [step, hd, hrecover, hgrant]
      | error e =>
        refine .inr ⟨fun m' ⟨_, _, d, hrecover', hok⟩ => ?_, fun e he => ?_, ?_⟩
        · cases hrecover.symm.trans hrecover'
          cases hgrant.symm.trans hok
        · rw [step, hd]
          exact mem_cons_of_mem _ he
        · simp [step, hd, hgrant]

theorem Remembers.step (h : Remembers s) (hc : Forward s c) : Remembers (auth.step s c) := by
  have hold : ∀ x ∈ s.accepted, c.now ≤ x.time + 2 * defaultSkewSecs →
      (x.spelling, x.time) ∈ retained c.now s.seen := fun x hx hnow =>
    mem_retained.mpr ⟨(h x hx).2 (le_trans hc hnow), by omega⟩
  rcases auth.step_cases s c with ⟨m, hgrants, -, hseen, hacc⟩ | ⟨-, hseen, hacc⟩
  · intro x hx
    rw [hacc] at hx
    rw [hseen]
    rcases mem_cons.mp hx with rfl | hx
    · exact ⟨hgrants.fresh, fun _ => mem_cons_self⟩
    · exact ⟨(h x hx).1, fun hnow => mem_cons_of_mem _ (hold x hx hnow)⟩
  · intro x hx
    rw [hacc] at hx
    exact ⟨(h x hx).1, fun hnow => hseen _ (hold x hx hnow)⟩

theorem once_step_iff (h : Once s) : Once (auth.step s c) ↔ auth.Recognised s c := by
  rcases auth.step_cases s c with ⟨m, hgrants, hkey, -, hacc⟩ | ⟨hkey, -, hacc⟩
  · rw [Once, hacc, map_cons, nodup_cons, and_iff_left (show List.Nodup _ from h)]
    refine ⟨fun hnew m' hm' hmem => absurd ?_ hnew, fun hrec hmem => hkey (hrec m hgrants hmem)⟩
    obtain ⟨_, _, _, hp, -⟩ := hgrants
    obtain ⟨_, _, _, hp', -⟩ := hm'
    cases hp.symm.trans hp'
    exact hmem
  · exact iff_of_true (by rwa [Once, hacc]) fun m hm _ => hkey m hm

/-- A proof that comes back is fresh at both visits, so the first is remembered. -/
theorem Remembers.recognised (h : Remembers s) (hc : Forward s c) (ha : auth.SpelledAlike s c) :
    auth.Recognised s c := by
  intro m hm hmem
  obtain ⟨x, hx, rfl⟩ := mem_map.mp hmem
  obtain ⟨hfresh, hseen⟩ := h x hx
  have hback : c.now ≤ x.time + 2 * defaultSkewSecs := by
    have hnow := hm.fresh
    omega
  rw [← ha _ hm x hx rfl]
  exact mem_map_of_mem (mem_retained.mpr ⟨hseen (le_trans hc hback), by omega⟩)

/-- **A proof serves once** along a run exactly if each repeated proof that is otherwise in order is
spelled like a visit that is remembered; so it does if proofs keep their spelling. -/
theorem discharged_once_iff (auth : DischargeAuthority Key) {clock : ℕ}
    {calls : List (DischargeCall Key)} (hf : Run.Each auth.step Forward ⟨[], clock, []⟩ calls) :
    (Run.Always auth.step Once ⟨[], clock, []⟩ calls ↔
      Run.Each auth.step auth.Recognised ⟨[], clock, []⟩ calls) ∧
    (Run.Each auth.step auth.SpelledAlike ⟨[], clock, []⟩ calls →
      Run.Each auth.step auth.Recognised ⟨[], clock, []⟩ calls) := by
  have hstart : Remembers ⟨[], clock, []⟩ := nofun
  refine ⟨Run.always_iff_each (fun s c => Remembers.step) (fun s c _ _ => once_step_iff) hstart
    nodup_nil hf, ?_⟩
  exact Run.each_of_keeps (fun s c => Remembers.step) (fun s c => Remembers.recognised) hstart hf

end DischargeAuthority

/-! ### A nonce in two cases -/

namespace RespelledNonce

/-- An authority that decrypts every ticket for `volume-rw` and takes every proof. -/
def authority : DischargeAuthority Unit :=
  ⟨.crockford, fun _ => some ⟨[], "volume-rw".toList⟩, fun _ _ _ => true⟩

/-- Volume 7. -/
def volume : Text := "00000000000000000000000007".toList

/-- A proof for volume 7 with the nonce as written; the name is bound to the volume. -/
def call (nonce : String) : DischargeCall Unit where
  req :=
    { cid := [], name := [], owned := volume, target := volume, ts := 100
      nonce := nonce.toList, proof := List.replicate 128 '0' }
  now := 100
  volumePub _ := .ok ()
  nameRecord _ := .ok ⟨7, 0, none, .live, none, none, none, none, none⟩
  lineageSet _ _ := none

/-- The same proof is accepted in lower and in upper case. -/
theorem accepted_twice :
    Run.Each authority.step DischargeAuthority.Forward ⟨[], 100, []⟩ [call "ab", call "AB"] ∧
      ¬ Run.Always authority.step DischargeAuthority.Once ⟨[], 100, []⟩ [call "ab", call "AB"] := by
  refine ⟨⟨le_rfl, le_rfl, trivial⟩, fun h => ?_⟩
  have htwice : ([call "ab", call "AB"].foldl authority.step ⟨[], 100, []⟩).accepted.map
      AcceptedProof.message = List.replicate 2 ⟨7, 7, [], 100, [171]⟩ := by decide +kernel
  have hlast := h.last
  rw [DischargeAuthority.Once, htwice] at hlast
  exact absurd hlast (by decide)

/-- Sent again as it was, the proof is refused. -/
theorem accepted_once :
    Run.Always authority.step DischargeAuthority.Once ⟨[], 100, []⟩ [call "ab", call "ab"] := by
  have hf : Run.Each authority.step DischargeAuthority.Forward ⟨[], 100, []⟩
      [call "ab", call "ab"] := ⟨le_rfl, le_rfl, trivial⟩
  obtain ⟨hiff, halike⟩ := authority.discharged_once_iff hf
  refine hiff.mpr (halike ⟨fun _ _ => nofun, fun m _ x hx _ => ?_, trivial⟩)
  have hone : (authority.step ⟨[], 100, []⟩ (call "ab")).accepted.map AcceptedProof.spelling =
      [(volume, "ab".toList)] := by decide +kernel
  have hmem := mem_map_of_mem (f := AcceptedProof.spelling) hx
  rw [hone] at hmem
  exact mem_singleton.mp hmem

end RespelledNonce

end Elide
