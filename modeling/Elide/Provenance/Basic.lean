import Elide.Lib.Text
import Elide.Segment
import Mathlib.Data.Nat.Digits.Lemmas
import Mathlib.Tactic.IntervalCases
import Mathlib.Tactic.NormNum

/-!
# Provenance files

A volume signs its lineage: the fork parent, the snapshots whose extents seed its extent index, the
OCI image a root was imported from, and the forks a forced claim may read while it recovers. The
file is a list of fields in any order, the signed bytes are the values joined by NUL.

Texts are lists of characters and so are the signed bytes, since UTF-8 tells texts apart. What the
ULID crate does with texts is a parameter (`UlidText`), as is how an error message quotes a value.
-/

namespace Elide

open Nat

/-- ULIDs as texts. -/
structure UlidText where
  toText : Ulid → Text
  fromText : Text → Except Text Ulid
  fromText_toText : ∀ u, fromText (toText u) = .ok u
  isAlphanum_toText : ∀ u, ∀ c ∈ toText u, c.isAlphanum = true
  toText_ne_nil : ∀ u, toText u ≠ []

namespace UlidText

/-- The digits of base 32 that leave out what can be mistaken for another. -/
def alphabet : List Char := "0123456789ABCDEFGHJKMNPQRSTVWXYZ".toList

/-- Digits of base 32, the highest first, at least 26 of them. -/
def base32 (u : Ulid) : Text :=
  let digits := digits 32 u
  ((digits ++ List.replicate (26 - digits.length) 0).map fun d => alphabet.getD d '0').reverse

/-- The number base 32 digits stand for. -/
def readBase32 (t : Text) : Except Text Ulid :=
  match t.reverse.mapM fun c => alphabet.idxOf? c with
  | some digits => .ok (ofDigits 32 digits)
  | none => .error "invalid character".toList

theorem idxOf?_alphabet {d : ℕ} (hd : d < 32) :
    alphabet.idxOf? (alphabet.getD d '0') = some d := by
  interval_cases d <;> decide

theorem isAlphanum_alphabet {d : ℕ} (hd : d < 32) : (alphabet.getD d '0').isAlphanum = true := by
  interval_cases d <;> decide

theorem lt_of_mem_padded {u d : ℕ}
    (hd : d ∈ digits 32 u ++ List.replicate (26 - (digits 32 u).length) 0) : d < 32 := by
  rcases List.mem_append.mp hd with h | h
  · exact digits_lt_base (by norm_num) h
  · rw [(List.mem_replicate.mp h).2]
    norm_num

/-- Texts of the usual form. -/
def crockford : UlidText where
  toText := base32
  fromText := readBase32
  fromText_toText u := by
    have hread : ∀ l : List ℕ, (∀ d ∈ l, d < 32) →
        (l.map fun d => alphabet.getD d '0').mapM (fun c => alphabet.idxOf? c) = some l := by
      intro l hl
      induction l with
      | nil => rfl
      | cons d l ih =>
        rw [List.map_cons, List.mapM_cons, idxOf?_alphabet (hl d List.mem_cons_self),
          ih fun e he => hl e (List.mem_cons_of_mem _ he)]
        rfl
    rw [readBase32, base32, List.reverse_reverse, hread _ fun d hd => lt_of_mem_padded hd]
    simp [ofDigits_digits]
  isAlphanum_toText u c hc := by
    obtain ⟨d, hd, rfl⟩ := List.mem_map.mp (List.mem_reverse.mp hc)
    exact isAlphanum_alphabet (lt_of_mem_padded hd)
  toText_ne_nil u h := by
    have hlen := congrArg List.length h
    simp only [base32, List.length_reverse, List.length_map, List.length_append,
      List.length_replicate, List.length_nil] at hlen
    omega

end UlidText

/-! ### Hexadecimal -/

/-- A digit, in lower case. -/
def hexDigit (n : ℕ) : Char := if n < 10 then Char.ofNat (48 + n) else Char.ofNat (87 + n)

/-- Two digits for each byte. -/
def encodeHex (bytes : List UInt8) : Text :=
  bytes.flatMap fun b => [hexDigit (b.toNat / 16), hexDigit (b.toNat % 16)]

/-- The value of a digit in either case. -/
def hexValue (c : Char) : Option ℕ :=
  if '0' ≤ c ∧ c ≤ '9' then some (c.toNat - 48)
  else if 'a' ≤ c ∧ c ≤ 'f' then some (c.toNat - 87)
  else if 'A' ≤ c ∧ c ≤ 'F' then some (c.toNat - 55)
  else none

/-- Two characters read as a number in base 16, which may have a plus sign in front. -/
def byteOfHex (hi lo : Char) : Option UInt8 :=
  if hi = '+' then (hexValue lo).map UInt8.ofNat
  else (hexValue hi).bind fun h => (hexValue lo).map fun l => UInt8.ofNat (16 * h + l)

/-- The bytes from byte position `i` on, two UTF-8 bytes at a time. A slice that ends inside a
character panics; here that is an error too. -/
def decodeHexFrom (i : ℕ) : Text → Except Text (List UInt8)
  | [] => .ok []
  | hi :: t =>
    if hi.utf8Size = 2 then .error ("invalid hex at position ".toList ++ (toString i).toList)
    else match t with
      | lo :: t =>
        if hi.utf8Size = 1 ∧ lo.utf8Size = 1 then
          match byteOfHex hi lo with
          | some b => (decodeHexFrom (i + 2) t).map (b :: ·)
          | none => .error ("invalid hex at position ".toList ++ (toString i).toList)
        else .error "not a char boundary".toList
      | [] => .error "not a char boundary".toList

/-- Read hex; the length counts bytes of the text, as the source's does. -/
def decodeHex (t : Text) : Except Text (List UInt8) :=
  if (t.map Char.utf8Size).sum % 2 = 0 then decodeHexFrom 0 t
  else .error "hex string has odd length".toList

/-! ### Lineages -/

/-- The snapshot a fork descends from, and the key its files are signed with. -/
structure ParentRef where
  volumeUlid : Ulid
  snapshotUlid : Ulid
  pubkey : Vector UInt8 32
  deriving DecidableEq

/-- The image a root was imported from. -/
structure OciSource where
  image : Text
  digest : Text
  arch : Text
  deriving DecidableEq

/-- What a volume signs about where it comes from. -/
inductive ProvenanceLineage where
  | root (extentIndex : List Text) (ociSource : Option OciSource)
  | fork (parent : ParentRef) (extentIndex : List Text)
  /-- A forced claim that is copying the segments of the forks it names. -/
  | recovering (parent : Option ParentRef) (extentIndex : List Text) (recoverySources : List Ulid)
  deriving DecidableEq

namespace ProvenanceLineage

/-- The fork's parent. -/
def parent : ProvenanceLineage → Option ParentRef
  | fork parent _ => some parent
  | recovering parent _ _ => parent
  | root _ _ => none

/-- The volumes whose extents it may refer to. -/
def extentIndex : ProvenanceLineage → List Text
  | root extentIndex _ | fork _ extentIndex | recovering _ extentIndex _ => extentIndex

/-- The image a root was imported from. -/
def ociSource : ProvenanceLineage → Option OciSource
  | root _ ociSource => ociSource
  | _ => none

/-- The volumes whose tail is being recovered. -/
def recoverySources : ProvenanceLineage → List Ulid
  | recovering _ _ recoverySources => recoverySources
  | _ => []

/-- The variant the parts imply. -/
def fromParts (parent : Option ParentRef) (extentIndex : List Text) (recoverySources : List Ulid) :
    ProvenanceLineage :=
  if !recoverySources.isEmpty then recovering parent extentIndex recoverySources
  else match parent with
    | some parent => fork parent extentIndex
    | none => root extentIndex none

/-- Drop the recovery grant. -/
def clearedRecovery : ProvenanceLineage → ProvenanceLineage
  | recovering (some parent) extentIndex _ => fork parent extentIndex
  | recovering none extentIndex _ => root extentIndex none
  | lineage => lineage

end ProvenanceLineage

section Texts

variable (U : UlidText)

/-- The reference as it is written. -/
def ParentRef.toDisplay (p : ParentRef) : Text :=
  U.toText p.volumeUlid ++ '/' :: U.toText p.snapshotUlid

/-- The parent's field, or nothing. -/
def parentText (parent : Option ParentRef) : Text := (parent.map (ParentRef.toDisplay U)).getD []

/-- The parent key's field, or nothing. -/
def parentPubkeyText (parent : Option ParentRef) : Text :=
  (parent.map fun p => encodeHex p.pubkey.toList).getD []

/-- What the signed list of recovery sources starts with. -/
def PROVENANCE_RECOVERY_SOURCES_DOMAIN : Text := "elide-recovery-sources-v1".toList

/-- The signed bytes. -/
def provenanceSigningInput (lineage : ProvenanceLineage) : Text :=
  parentText U lineage.parent ++ '\x00' :: (parentPubkeyText lineage.parent ++
    (Text.tagged '\x00' lineage.extentIndex ++
    ((match lineage.ociSource with
      | some src => Text.tagged '\x00' [src.image, src.digest, src.arch]
      | none => []) ++
    if lineage.recoverySources.isEmpty then []
    else Text.tagged '\x00'
      (PROVENANCE_RECOVERY_SOURCES_DOMAIN :: lineage.recoverySources.map U.toText))))

/-- One line of a file. -/
def fieldLine (key : String) (value : Text) : Text := key.toList ++ value ++ ['\n']

/-! ### Reading a file -/

/-- What a line can be. -/
inductive ProvenanceLine where
  | ociImage (value : Text)
  | ociDigest (value : Text)
  | ociArch (value : Text)
  | parentPubkey (value : Text)
  | parent (value : Text)
  | extentIndex
  | recoverySources
  | sig (value : Text)
  | other
  deriving DecidableEq

/-- The line, if it begins with the key. -/
def keyed (line : Text) (key : String) (make : Text → ProvenanceLine) : Option ProvenanceLine :=
  (line.dropPrefix? key.toList).map make

/-- A bare key has the empty value, and with anything after it the line is ignored. -/
def bare (make : Text → ProvenanceLine) (rest : Text) : ProvenanceLine :=
  if rest.isEmpty then make [] else .other

/-- What the line is. The first key that fits decides. -/
def classifyLine (line : Text) : ProvenanceLine :=
  ([keyed line "oci_image: " .ociImage,
    keyed line "oci_digest: " .ociDigest,
    keyed line "oci_arch: " .ociArch,
    keyed line "parent_pubkey: " .parentPubkey,
    keyed line "parent_pubkey:" (bare .parentPubkey),
    keyed line "parent: " .parent,
    keyed line "parent:" (bare .parent),
    if line = "extent_index:".toList then some .extentIndex else none,
    if line = "recovery_sources:".toList then some .recoverySources else none,
    keyed line "sig: " .sig].findSome? id).getD .other

/-- The list that an indented line goes on with. -/
inductive OpenList where
  | none
  | extentIndex
  | recoverySources
  deriving DecidableEq

/-- What has been read. The outer option of the parent fields says whether there was a line. -/
structure ProvenanceFields where
  parent : Option (Option Text) := none
  parentPubkey : Option (Option Text) := none
  extentIndex : Option (List Text) := none
  ociImage : Option Text := none
  ociDigest : Option Text := none
  ociArch : Option Text := none
  sig : Option (List UInt8) := none
  recoverySources : List Ulid := []
  openList : OpenList := .none

/-- The empty value is no value. -/
def nonEmpty (value : Text) : Option Text := if value.isEmpty then none else some value

variable (debug : Text → Text) (file : Text) (f : ProvenanceFields)

/-- Read a line that goes on with no list. -/
def readField (line : Text) : Except Text ProvenanceFields :=
  let f := { f with openList := .none }
  match classifyLine line with
  | .ociImage v => .ok { f with ociImage := some v }
  | .ociDigest v => .ok { f with ociDigest := some v }
  | .ociArch v => .ok { f with ociArch := some v }
  | .parentPubkey v => .ok { f with parentPubkey := some (nonEmpty v) }
  | .parent v => .ok { f with parent := some (nonEmpty v) }
  | .extentIndex => .ok { f with extentIndex := some [], openList := .extentIndex }
  | .recoverySources => .ok { f with openList := .recoverySources }
  | .sig v => (decodeHex v).map fun sig => { f with sig := some sig }
  | .other => .ok f

/-- Read a line. -/
def readLine (line : Text) : Except Text ProvenanceFields :=
  match f.openList, line.dropPrefix? "  ".toList with
  | .extentIndex, some entry => .ok { f with extentIndex := f.extentIndex.map (· ++ [entry]) }
  | .recoverySources, some entry =>
    match U.fromText entry with
    | .ok u => .ok { f with recoverySources := f.recoverySources ++ [u] }
    | .error e => .error (file ++ " recovery_sources entry ".toList ++ debug entry ++
        " not a ulid: ".toList ++ e)
  | _, _ => readField f line

/-- The parent a pair of fields names. -/
def parseParent (parent parentPubkey : Option Text) : Except Text (Option ParentRef) :=
  match parent, parentPubkey with
  | none, none => .ok none
  | some s, some hex =>
    match Text.splitOnce '/' s with
    | none => .error (file ++ " parent ".toList ++ debug s ++ " missing '/' separator".toList)
    | some (volume, snapshot) =>
      match U.fromText volume with
      | .error e => .error (file ++ " parent volume ulid invalid: ".toList ++ e)
      | .ok volumeUlid =>
        match U.fromText snapshot with
        | .error e => .error (file ++ " parent snapshot ulid invalid: ".toList ++ e)
        | .ok snapshotUlid =>
          match decodeHex hex with
          | .error e => .error e
          | .ok bytes =>
            if h : bytes.length = 32 then
              .ok (some ⟨volumeUlid, snapshotUlid, ⟨bytes.toArray, h⟩⟩)
            else .error (file ++ " parent_pubkey wrong length (expected 64 hex chars)".toList)
  | some _, none => .error (file ++ " has parent but missing parent_pubkey".toList)
  | none, some _ => .error (file ++ " has parent_pubkey but missing parent".toList)

/-- The OCI source that the three fields name. -/
def parseOciSource : Option Text → Option Text → Option Text → Except Text (Option OciSource)
  | none, none, none => .ok none
  | some image, some digest, some arch => .ok (some ⟨image, digest, arch⟩)
  | _, _, _ => .error (file ++ (" has partial oci_source (need all of oci_image, oci_digest, " ++
      "oci_arch or none)").toList)

/-- The variant the fields make. -/
def parseVariant (parent : Option ParentRef) (extentIndex : List Text)
    (ociSource : Option OciSource) (recoverySources : List Ulid) : Except Text ProvenanceLineage :=
  if !recoverySources.isEmpty then
    if ociSource.isSome then
      .error (file ++ " carries both recovery_sources and oci_source".toList)
    else .ok (.recovering parent extentIndex recoverySources)
  else match parent with
    | some parent =>
      if ociSource.isSome then
        .error (file ++
          " carries both a parent and oci_source (a fork cannot be an OCI root)".toList)
      else .ok (.fork parent extentIndex)
    | none => .ok (.root extentIndex ociSource)

/-- The lineage and signature of the fields, all of which but the optional ones must be there. -/
def ProvenanceFields.finish : Except Text (ProvenanceLineage × List UInt8) :=
  match f.parent, f.parentPubkey, f.extentIndex, f.sig with
  | none, _, _, _ => .error (file ++ " missing parent line".toList)
  | _, none, _, _ => .error (file ++ " missing parent_pubkey line".toList)
  | _, _, none, _ => .error (file ++ " missing extent_index section".toList)
  | _, _, _, none => .error (file ++ " missing sig line".toList)
  | some parent, some parentPubkey, some extentIndex, some sig =>
    match parseParent U debug file parent parentPubkey with
    | .error e => .error e
    | .ok parent =>
      match parseOciSource file f.ociImage f.ociDigest f.ociArch with
      | .error e => .error e
      | .ok ociSource =>
        (parseVariant file parent extentIndex ociSource f.recoverySources).map (·, sig)

/-- Read a file. -/
def parseProvenance (content : Text) : Except Text (ProvenanceLineage × List UInt8) :=
  match (Text.lines content).foldlM (readLine U debug file) {} with
  | .error e => .error e
  | .ok f => f.finish U debug file

/-- Read a file and check its signature. `verify` is the volume's key. -/
def verifyLineageWithKey (verify : Text → List UInt8 → Bool) (content : Text) :
    Except Text ProvenanceLineage :=
  match parseProvenance U debug file content with
  | .error e => .error e
  | .ok (lineage, sig) =>
    if sig.length = 64 then
      if verify (provenanceSigningInput U lineage) sig then .ok lineage
      else .error (file ++ " signature invalid".toList)
    else .error (file ++ " sig wrong length (expected 64 bytes)".toList)

end Texts

end Elide
