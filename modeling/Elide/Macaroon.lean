import Elide.Lib.ByteReader
import Elide.Lib.Run
import Elide.Provenance.Signature

/-!
# Macaroons

A coordinator's token is a nonce, a list of caveats and a tag, the last of a chain of keyed hashes:
the root key hashes the nonce, and every tag is the key that hashes the next caveat. Whoever holds a
token can add caveats to it. To take one away would be to find the key of a hash.

Hashing is symbolic: a tag is of one key and one message, and it is come by with that key or not at
all. Which tag the bytes of a token stand for is a parameter.

## Main results

* `KeyedHash.held_tokens_restrict`: a token that verifies has the nonce of a minted one and its
  caveats, and perhaps more behind them.
* `Macaroon.parse_encode`: a token is read back from its text.
-/

namespace Elide

open ByteReader List

/-! ### Caveats -/

/-- What a token may be used for. -/
inductive Scope where
  | credentials
  deriving DecidableEq

/-- The scope's byte on the wire. -/
def Scope.toByte : Scope → UInt8
  | credentials => 0

/-- The scope a byte stands for. -/
def Scope.fromByte (b : UInt8) : Option Scope := if b = 0 then some .credentials else none

/-- A restriction a token carries. -/
inductive Caveat where
  | volume (v : String)
  | scope (s : Scope)
  | pid (p : BitVec 32)
  | notAfter (t : UInt64)
  deriving DecidableEq

/-- What a caveat adds to the chain. The length of a volume is cut to a byte. -/
def serializeOne : Caveat → List UInt8
  | .volume v => 0 :: UInt8.ofNat v.utf8ByteSize :: v.toByteArray.data.toList
  | .scope s => [1, s.toByte]
  | .pid p => 2 :: (toBytes 4 p.toNat).reverse
  | .notAfter t => 3 :: (toBytes 8 t.toNat).reverse

/-- So is their number. -/
def serializeCaveats (caveats : List Caveat) : List UInt8 :=
  UInt8.ofNat caveats.length :: caveats.flatMap serializeOne

/-- One caveat, by its tag byte. -/
def readCaveat : ByteReader Caveat := do
  let tag ← readU8
  if tag = 0 then do
    let len ← readU8
    let bytes ← readBytes len.toNat
    match String.fromUTF8? ⟨bytes.toArray⟩ with
    | some v => pure (.volume v)
    | none => fail (.invalidData "non-utf8 volume caveat")
  else if tag = 1 then do
    let b ← readU8
    match Scope.fromByte b with
    | some s => pure (.scope s)
    | none => fail (.invalidData ("unknown scope: " ++ toString b.toNat))
  else if tag = 2 then do
    let bytes ← readBytes 4
    pure (.pid (BitVec.ofNat 32 (ofBytes bytes.reverse)))
  else if tag = 3 then do
    let bytes ← readBytes 8
    pure (.notAfter (UInt64.ofNat (ofBytes bytes.reverse)))
  else fail (.invalidData ("unknown caveat tag: " ++ toString tag.toNat))

/-- The given number of caveats. -/
def readCaveats : ℕ → ByteReader (List Caveat)
  | 0 => pure []
  | n + 1 => do
    let c ← readCaveat
    let cs ← readCaveats n
    pure (c :: cs)

/-- The caveats of a blob, which must end with the last. -/
def deserializeCaveats (blob : List UInt8) : Except Text (List Caveat) :=
  let reader := do
    let count ← readU8
    readCaveats count.toNat
  match reader ⟨0, blob⟩ with
  | .ok (cs, cur) => if cur.rest = [] then .ok cs else .error "trailing bytes in caveat blob".toList
  | .error .unexpectedEof => .error "unexpected eof in caveat blob".toList
  | .error (.invalidData m) => .error m.toList

/-- What a request knows of itself. -/
structure VerifyCtx where
  volume : Ulid
  peerPid : BitVec 32
  nowUnix : UInt64
  acceptedScopes : List Scope

namespace Caveat

variable (U : UlidText) (ctx : VerifyCtx)

/-- One turn of the loop of `checkCaveats`. -/
def check : Caveat → Except String Unit
  | volume v =>
    if v.toList = U.toText ctx.volume then .ok ()
    else .error "volume caveat does not match request"
  | scope s => if s ∈ ctx.acceptedScopes then .ok () else .error "macaroon scope mismatch"
  | pid p => if p = ctx.peerPid then .ok () else .error "peer pid does not match macaroon"
  | notAfter t => if t ≤ ctx.nowUnix then .error "macaroon expired" else .ok ()

/-- The request satisfies the caveat. -/
def Holds : Caveat → Prop
  | volume v => v.toList = U.toText ctx.volume
  | scope s => s ∈ ctx.acceptedScopes
  | pid p => p = ctx.peerPid
  | notAfter t => ctx.nowUnix < t

theorem check_ok {c : Caveat} (h : c.check U ctx = .ok ()) : c.Holds U ctx := by
  cases c with
  | notAfter t =>
    rw [check] at h
    split_ifs at h with ht
    exact UInt64.not_le.mp ht
  | _ =>
    rw [check] at h
    split_ifs at h with ht
    exact ht

end Caveat

theorem serializeOne_injective : Function.Injective serializeOne := by
  have hnum : ∀ {n v w : ℕ}, v < 256 ^ n → w < 256 ^ n →
      (toBytes n v).reverse = (toBytes n w).reverse → v = w := fun hv hw h => by
    rw [← ofBytes_toBytes hv, reverse_injective h, ofBytes_toBytes hw]
  intro c d h
  cases c <;> cases d <;> simp only [serializeOne, cons.injEq] at h
  case volume.volume v w =>
    rw [String.toByteArray_inj.mp (ByteArray.ext (Array.toList_inj.mp h.2.2))]
  case scope.scope s s' => cases s; cases s'; rfl
  case pid.pid p q => rw [BitVec.eq_of_toNat_eq (hnum p.isLt q.isLt h.2)]
  case notAfter.notAfter t u => rw [UInt64.toNat.inj (hnum t.toNat_lt u.toNat_lt h.2)]
  all_goals exact absurd h.1 (by decide)

/-- A caveat whose volume's length is a byte is read back. -/
theorem reads_caveat {c : Caveat} (hc : ∀ v, c = .volume v → v.utf8ByteSize < 256) (pos : ℕ) :
    ByteReader.Reads readCaveat pos (serializeOne c) c := by
  have hread : ∀ n v pos,
      ByteReader.Reads (readBytes n) pos (toBytes n v).reverse (toBytes n v).reverse := by
    intro n v pos
    have h := reads_bytes pos (toBytes n v).reverse
    rwa [length_reverse, length_toBytes] at h
  cases c with
  | volume v =>
    have hlen : (UInt8.ofNat v.utf8ByteSize).toNat = v.toByteArray.data.toList.length := by
      rw [UInt8.toNat_ofNat', Nat.mod_eq_of_lt (hc v rfl)]
      rfl
    have hback : String.fromUTF8? v.toByteArray = some v := dif_pos v.isValidUTF8
    refine (reads_u8 pos 0).bind ((reads_u8 _ _).bind ?_)
    rw [hlen]
    refine (reads_bytes _ _).bind_last ?_
    simp only [Array.toArray_toList, hback]
    exact .pure _ _
  | scope s =>
    refine (reads_u8 pos 1).bind ((reads_u8 _ s.toByte).bind_last ?_)
    exact .pure _ _
  | pid p =>
    refine (reads_u8 pos 2).bind ((hread 4 _ _).bind_last ?_)
    rw [reverse_reverse, ofBytes_toBytes p.isLt, BitVec.ofNat_toNat, BitVec.setWidth_eq]
    exact .pure _ _
  | notAfter t =>
    refine (reads_u8 pos 3).bind ((hread 8 _ _).bind_last ?_)
    rw [reverse_reverse, ofBytes_toBytes t.toNat_lt, UInt64.ofNat_toNat]
    exact .pure _ _

section

variable {cs : List Caveat} (hcs : ∀ v, .volume v ∈ cs → v.utf8ByteSize < 256)
include hcs

theorem reads_caveats (pos : ℕ) :
    ByteReader.Reads (readCaveats cs.length) pos (cs.flatMap serializeOne) cs := by
  induction cs generalizing pos with
  | nil => exact .pure _ _
  | cons c cs ih =>
    refine (reads_caveat (fun v hv => hcs v (hv ▸ mem_cons_self)) pos).bind ?_
    exact (ih (fun v hv => hcs v (mem_cons_of_mem c hv)) _).bind_last (.pure _ _)

theorem deserializeCaveats_serializeCaveats (hlen : cs.length < 256) :
    deserializeCaveats (serializeCaveats cs) = .ok cs := by
  have hcount : (UInt8.ofNat cs.length).toNat = cs.length := by
    rw [UInt8.toNat_ofNat', Nat.mod_eq_of_lt hlen]
  have hread := ((reads_u8 0 (UInt8.ofNat cs.length)).bind
    (k := fun count => readCaveats count.toNat) (by rw [hcount]; exact reads_caveats hcs _)).full []
  rw [append_nil, singleton_append] at hread
  simp only [deserializeCaveats, serializeCaveats, hread, if_true]

end

/-! ### Tokens -/

/-- A token: its nonce, its caveats and the last link of its chain. -/
structure Macaroon (Tag : Type) where
  nonce : List UInt8
  caveats : List Caveat
  mac : Tag

/-- Keyed BLAKE3 and the coordinator's key. -/
structure KeyedHash where
  Tag : Type
  keyedHash : Tag → List UInt8 → Tag
  injective : Function.Injective2 keyedHash
  rootKey : Tag
  ne_rootKey : ∀ key msg, keyedHash key msg ≠ rootKey
  /-- The tag that 32 bytes stand for. -/
  fromBytes : List UInt8 → Tag
  decEq : DecidableEq Tag

attribute [instance] KeyedHash.decEq

namespace Macaroon

/-- First part of a token's text. -/
def MAGIC : Text := ['v', '2']

/-- What the first link binds besides the nonce. -/
def DOMAIN : List UInt8 := "elide-macaroon-v2".toByteArray.data.toList

/-- Bytes of a nonce. -/
def NONCE_LEN : ℕ := 16

/-- `splitn`: at most `n` parts, the last with what is left. -/
def splitn (sep : Char) : ℕ → Text → List Text
  | 0, _ => []
  | 1, t => [t]
  | n + 2, t =>
    match Text.splitOnce sep t with
    | some (a, b) => a :: splitn sep (n + 1) b
    | none => [t]

/-- Hex of exactly `n` bytes. -/
def decodeHexFixed (n : ℕ) (t : Text) : Except Text (List UInt8) := do
  let v ← decodeHex t
  if v.length = n then return v
  else throw s!"expected {n} bytes, got {v.length}".toList

variable {Tag : Type}

/-- The token's text. -/
def encode (toBytes : Tag → List UInt8) (m : Macaroon Tag) : Text :=
  MAGIC ++ '.' :: (encodeHex m.nonce ++ '.' :: (encodeHex (toBytes m.mac) ++
    '.' :: encodeHex (serializeCaveats m.caveats)))

/-- Read a token's text; the tag is not checked. -/
def parse (fromBytes : List UInt8 → Tag) (s : Text) : Except Text (Macaroon Tag) :=
  match splitn '.' 4 s with
  | [] => .error "malformed macaroon".toList
  | magic :: parts =>
    if magic ≠ MAGIC then .error ("unsupported macaroon version: ".toList ++ magic)
    else
      match parts with
      | [nonceHex, macHex, cavHex] => do
        let nonce ← decodeHexFixed NONCE_LEN nonceHex
        let mac ← decodeHexFixed 32 macHex
        let blob ← decodeHex cavHex
        let caveats ← deserializeCaveats blob
        return ⟨nonce, caveats, fromBytes mac⟩
      | _ => .error "malformed macaroon".toList

theorem decodeHexFixed_encodeHex {n : ℕ} {bytes : List UInt8} (h : bytes.length = n) :
    decodeHexFixed n (encodeHex bytes) = .ok bytes := by
  rw [decodeHexFixed, decodeHex_encodeHex, Run.ok_bind, if_pos h]
  rfl

/-- **A token is what its text parses to**, if its caveats are less than 256 and so are the bytes of
their volumes. -/
theorem parse_encode {fromBytes : List UInt8 → Tag} {toBytes : Tag → List UInt8}
    {m : Macaroon Tag} (hnonce : m.nonce.length = NONCE_LEN) (hmac : (toBytes m.mac).length = 32)
    (hback : fromBytes (toBytes m.mac) = m.mac) (hlen : m.caveats.length < 256)
    (hcs : ∀ v, .volume v ∈ m.caveats → v.utf8ByteSize < 256) :
    parse fromBytes (m.encode toBytes) = .ok m := by
  have hdot : ∀ bytes, '.' ∉ encodeHex bytes := fun bytes h => by
    cases isAlphanum_encodeHex h
  have hparts : splitn '.' 4 (m.encode toBytes) = [MAGIC, encodeHex m.nonce,
      encodeHex (toBytes m.mac), encodeHex (serializeCaveats m.caveats)] := by
    simp only [encode, splitn, Text.splitOnce_append (hdot _),
      Text.splitOnce_append (show '.' ∉ MAGIC by decide)]
  rw [parse, hparts]
  simp only [ne_eq, not_true_eq_false, if_false, decodeHexFixed_encodeHex hnonce,
    decodeHexFixed_encodeHex hmac, decodeHex_encodeHex, Run.ok_bind,
    deserializeCaveats_serializeCaveats hcs hlen, hback]
  rfl

theorem parse_encode_each_kind :
    let m : Macaroon (List UInt8) := ⟨replicate 16 7,
      [.volume "v", .scope .credentials, .pid 7, .notAfter 9], replicate 32 1⟩
    parse id (m.encode id) = .ok m := by
  refine parse_encode rfl rfl rfl (by decide) fun v hv => ?_
  obtain rfl : v = "v" := by simpa using hv
  decide

/-- Every caveat has to hold, and one of each kind but the last has to be there. -/
def checkCaveats (m : Macaroon Tag) (U : UlidText) (ctx : VerifyCtx) : Except String Ulid := do
  forM m.caveats (Caveat.check U ctx)
  if !m.caveats.any (· matches .volume _) then throw "missing volume caveat"
  if !m.caveats.any (· matches .scope _) then throw "missing scope caveat"
  if !m.caveats.any (· matches .pid _) then throw "missing pid caveat"
  return ctx.volume

theorem holds_of_checkCaveats {m : Macaroon Tag} {U : UlidText} {ctx : VerifyCtx} {v : Ulid}
    (h : m.checkCaveats U ctx = .ok v) : ∀ c ∈ m.caveats, c.Holds U ctx := by
  rw [checkCaveats] at h
  obtain ⟨_, h, -⟩ := Run.exists_of_bind_ok h
  generalize m.caveats = cs at h
  induction cs with
  | nil => exact forall_mem_nil _
  | cons c cs ih =>
    rw [forM_cons] at h
    obtain ⟨_, hc, h⟩ := Run.exists_of_bind_ok h
    exact forall_mem_cons.mpr ⟨c.check_ok U ctx hc, ih h⟩

end Macaroon

namespace KeyedHash

variable (B : KeyedHash)

/-- The chain of messages behind the first, the newest one first. -/
def chain (seed : List UInt8) (msgs : List (List UInt8)) : B.Tag :=
  msgs.foldr (fun msg key => B.keyedHash key msg) (B.keyedHash B.rootKey seed)

/-- The chain: each caveat is hashed under the link before it. -/
def chainMac (nonce : List UInt8) (caveats : List Caveat) : B.Tag :=
  caveats.foldl (fun key c => B.keyedHash key (serializeOne c))
    (B.keyedHash B.rootKey (Macaroon.DOMAIN ++ nonce))

/-- A new token. -/
def mint (nonce : List UInt8) (caveats : List Caveat) : Macaroon B.Tag :=
  ⟨nonce, caveats, B.chainMac nonce caveats⟩

/-- Whether the token's tag ends the chain of its own caveats. -/
def verify (m : Macaroon B.Tag) : Bool := decide (B.chainMac m.nonce m.caveats = m.mac)

/-- A holder adds a caveat, knowing only the tag. -/
def attenuate (m : Macaroon B.Tag) (c : Caveat) : Macaroon B.Tag :=
  { m with caveats := m.caveats ++ [c], mac := B.keyedHash m.mac (serializeOne c) }

variable (minted : List (Macaroon B.Tag))

/-- The tags that someone holding the minted tokens can come by. -/
inductive Known : B.Tag → Prop
  | minted {m : Macaroon B.Tag} (h : m ∈ minted) : Known m.mac
  | hashed {key : B.Tag} (h : Known key) (msg : List UInt8) : Known (B.keyedHash key msg)
  /-- Bytes that are no hash. -/
  | other {tag : B.Tag} (h : ∀ key msg, B.keyedHash key msg ≠ tag) (hroot : tag ≠ B.rootKey) :
    Known tag

/-- The texts they can send: the tag of a token is one they have come by. -/
def CanSend (s : Text) : Prop :=
  ∀ m, Macaroon.parse B.fromBytes s = .ok m → B.Known minted m.mac

variable {B minted} {seed seed' : List UInt8} {msgs : List (List UInt8)}

theorem chain_ne_rootKey : B.chain seed msgs ≠ B.rootKey := by
  cases msgs <;> exact B.ne_rootKey _ _

/-- Chains are equal link by link. -/
theorem chain_inj {msgs' : List (List UInt8)} (h : B.chain seed msgs = B.chain seed' msgs') :
    seed = seed' ∧ msgs = msgs' := by
  induction msgs generalizing msgs' with
  | nil =>
    cases msgs' with
    | nil => exact ⟨(B.injective h).2, rfl⟩
    | cons msg' msgs' => exact absurd (B.injective h).1.symm chain_ne_rootKey
  | cons msg msgs ih =>
    cases msgs' with
    | nil => exact absurd (B.injective h).1 chain_ne_rootKey
    | cons msg' msgs' =>
      obtain ⟨hkey, rfl⟩ := B.injective h
      obtain ⟨hseed, rfl⟩ := ih hkey
      exact ⟨hseed, rfl⟩

theorem chainMac_eq (nonce : List UInt8) (caveats : List Caveat) : B.chainMac nonce caveats =
    B.chain (Macaroon.DOMAIN ++ nonce) (caveats.reverse.map serializeOne) := by
  rw [chainMac, foldl_eq_foldr_reverse, chain, foldr_map]

variable (hminted : ∀ m ∈ minted, B.verify m = true)
include hminted

theorem not_known_rootKey : ¬ B.Known minted B.rootKey := by
  generalize hroot : B.rootKey = tag
  rintro (hm | - | ⟨-, hne⟩)
  · rw [← of_decide_eq_true (hminted _ hm), chainMac_eq] at hroot
    exact chain_ne_rootKey hroot.symm
  · exact B.ne_rootKey _ _ hroot.symm
  · exact hne hroot.symm

/-- **A chain that is known extends a minted one.** -/
theorem Known.extends {tag : B.Tag} (h : B.Known minted tag) (htag : tag = B.chain seed msgs) :
    ∃ m ∈ minted, seed = Macaroon.DOMAIN ++ m.nonce ∧
      m.caveats.reverse.map serializeOne <:+ msgs := by
  induction h generalizing msgs with
  | @minted m hm =>
    rw [← of_decide_eq_true (hminted m hm), chainMac_eq] at htag
    obtain ⟨hseed, hmsgs⟩ := chain_inj htag
    exact ⟨m, hm, hseed.symm, hmsgs ▸ suffix_rfl⟩
  | hashed hkey msg ih =>
    cases msgs with
    | nil => exact absurd ((B.injective htag).1 ▸ hkey) (not_known_rootKey hminted)
    | cons msg' msgs =>
      obtain ⟨m, hm, hseed, hsuffix⟩ := ih (B.injective htag).1
      exact ⟨m, hm, hseed, hsuffix.trans (suffix_cons msg' msgs)⟩
  | other hno => cases msgs <;> exact absurd htag.symm (hno _ _)

omit hminted

/-- **Holding tokens gives no more than the tokens.** A text that a holder of minted tokens can send
and that parses to a token whose chain verifies has the nonce of one of them and its caveats first,
so it is accepted only where all caveats minted hold. An attenuated token still verifies. -/
theorem held_tokens_restrict (B : KeyedHash) (issued : List (List UInt8 × List Caveat)) :
    (∀ s m, B.CanSend (issued.map fun t => B.mint t.1 t.2) s →
      Macaroon.parse B.fromBytes s = .ok m → B.verify m = true →
      ∃ t ∈ issued, m.nonce = t.1 ∧ t.2 <+: m.caveats ∧
        ∀ U ctx v, m.checkCaveats U ctx = .ok v → ∀ c ∈ t.2, c.Holds U ctx) ∧
    ∀ m c, B.verify m = true → B.verify (B.attenuate m c) = true := by
  have hminted : ∀ m ∈ issued.map fun t => B.mint t.1 t.2, B.verify m = true :=
    forall_mem_map.mpr fun t _ => decide_eq_true rfl
  refine ⟨fun s m hs hm hv => ?_, fun m c h => decide_eq_true ?_⟩
  · have hchain := (of_decide_eq_true hv).symm.trans (chainMac_eq _ _)
    obtain ⟨m₀, hm₀, hnonce, hsuffix⟩ := (hs m hm).extends hminted hchain
    obtain ⟨t, ht, rfl⟩ := mem_map.mp hm₀
    have hextends := reverse_suffix.mp
      ((suffix_map_iff_of_injective serializeOne_injective).mp hsuffix)
    refine ⟨t, ht, append_cancel_left hnonce, hextends, fun U ctx v hok c hc => ?_⟩
    exact Macaroon.holds_of_checkCaveats hok c (hextends.subset hc)
  · rw [chainMac, attenuate, foldl_append]
    exact congrArg (B.keyedHash · _) (of_decide_eq_true h)

namespace OneToken

/-- A nonce, and the caveats of a token for volume 1 and process 7. -/
def token : List UInt8 × List Caveat :=
  (replicate 16 0, [.volume "00000000000000000000000001", .scope .credentials, .pid 7])

/-- Tags that spell out what they are of. All bytes stand for the tag of `token` until 9. -/
def spelled : KeyedHash where
  Tag := List (List UInt8)
  keyedHash key msg := msg :: key
  injective _ _ _ _ h := (cons.inj h).symm
  rootKey := []
  ne_rootKey _ _ := cons_ne_nil _ _
  fromBytes _ :=
    (token.2 ++ [Caveat.notAfter 9]).reverse.map serializeOne ++ [Macaroon.DOMAIN ++ token.1]
  decEq := inferInstance

/-- The token with a time added, as its holder sends it. -/
def attenuated : Macaroon spelled.Tag :=
  spelled.attenuate (spelled.mint token.1 token.2) (.notAfter 9)

/-- The token as it is sent. -/
def text : Text := attenuated.encode fun _ => replicate 32 0

/-- A request of process 7 for volume 1 at time 5. -/
def request : VerifyCtx := ⟨1, 7, 5, [.credentials]⟩

end OneToken

open OneToken in
/-- The attenuated token is accepted, and the caveats minted hold. -/
theorem held_token_restricts : ∃ m, Macaroon.parse spelled.fromBytes text = .ok m ∧
    spelled.CanSend [spelled.mint token.1 token.2] text ∧ spelled.verify m = true ∧
    m.checkCaveats .crockford request = .ok 1 ∧
    ∃ t ∈ [token], m.nonce = t.1 ∧ t.2 <+: m.caveats ∧ ∀ c ∈ t.2, c.Holds .crockford request := by
  have hparse : Macaroon.parse spelled.fromBytes text = .ok attenuated := by rfl
  have hsend : spelled.CanSend [spelled.mint token.1 token.2] text := by
    intro m hm
    cases hparse.symm.trans hm
    exact .hashed (.minted mem_cons_self) _
  have hverify : spelled.verify attenuated = true := decide_eq_true rfl
  have hcheck : attenuated.checkCaveats .crockford request = .ok 1 := by rfl
  obtain ⟨t, ht, hnonce, hcaveats, hholds⟩ :=
    (held_tokens_restrict spelled [token]).1 _ _ hsend hparse hverify
  exact ⟨_, hparse, hsend, hverify, hcheck, t, ht, hnonce, hcaveats, hholds _ _ _ hcheck⟩

end KeyedHash

end Elide
