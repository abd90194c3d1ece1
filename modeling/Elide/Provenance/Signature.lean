import Elide.Provenance.Basic

/-!
# What a provenance signature fixes

The signed bytes are the parent, its key and then the values of all lists one after the other, each
with a NUL in front. The parent and its key are determined by the bytes. After them nothing says
where a list ends, and a line of the file may itself contain NUL, so two values or more can always be
read as one entry of the extent index.

## Main results

* `WrittenLineage.signature_fixes_iff`: no file text with the signature verifies as another lineage
  exactly when there is at most one value after the parent's key, an entry of the extent index.
* `WrittenLineage.oci_read_as_entries`: an OCI source that another file with the same signature turns
  into entries of the extent index.
-/

namespace Elide

open ProvenanceLineage Text Except
open List hiding Vector

/-! ### Hexadecimal -/

theorem hexValue_hexDigit {n : ℕ} (hn : n < 16) : hexValue (hexDigit n) = some n := by
  interval_cases n <;> decide

theorem hexDigit_ne_plus {n : ℕ} (hn : n < 16) : hexDigit n ≠ '+' := by
  interval_cases n <;> decide

theorem isAlphanum_hexDigit {n : ℕ} (hn : n < 16) : (hexDigit n).isAlphanum = true := by
  interval_cases n <;> decide

theorem utf8Size_hexDigit {n : ℕ} (hn : n < 16) : (hexDigit n).utf8Size = 1 := by
  interval_cases n <;> decide

theorem byteOfHex_hexDigit (b : UInt8) :
    byteOfHex (hexDigit (b.toNat / 16)) (hexDigit (b.toNat % 16)) = some b := by
  have hb : b.toNat < 256 := b.toNat_lt
  have hhi : b.toNat / 16 < 16 := by omega
  have hlo : b.toNat % 16 < 16 := Nat.mod_lt _ (by norm_num)
  rw [byteOfHex, if_neg (hexDigit_ne_plus hhi), hexValue_hexDigit hhi, hexValue_hexDigit hlo,
    Option.bind_some, Option.map_some, Nat.div_add_mod, UInt8.ofNat_toNat]

/-- Bytes read back from their digits. -/
theorem decodeHex_encodeHex (bytes : List UInt8) : decodeHex (encodeHex bytes) = .ok bytes := by
  have hread : ∀ i, decodeHexFrom i (encodeHex bytes) = .ok bytes ∧
      ((encodeHex bytes).map Char.utf8Size).sum = 2 * bytes.length := by
    induction bytes with
    | nil => exact fun _ => ⟨rfl, rfl⟩
    | cons b bytes ih =>
      intro i
      have hb : b.toNat < 256 := b.toNat_lt
      have hhi := utf8Size_hexDigit (n := b.toNat / 16) (by omega)
      have hlo := utf8Size_hexDigit (n := b.toNat % 16) (by omega)
      rw [encodeHex, flatMap_cons, ← encodeHex]
      constructor
      · simp [decodeHexFrom, hhi, hlo, byteOfHex_hexDigit, (ih (i + 2)).1, Except.map]
      · simp only [cons_append, nil_append, map_cons, sum_cons, hhi, hlo, (ih i).2, length_cons]
        omega
  rw [decodeHex, (hread 0).2, if_pos (Nat.mul_mod_right 2 _), (hread 0).1]

theorem isAlphanum_encodeHex {bytes : List UInt8} {c : Char} (hc : c ∈ encodeHex bytes) :
    c.isAlphanum = true := by
  obtain ⟨b, -, hc⟩ := mem_flatMap.mp hc
  have hb : b.toNat < 256 := b.toNat_lt
  rcases mem_cons.mp hc with rfl | hc
  · exact isAlphanum_hexDigit (by omega)
  · rw [mem_singleton.mp hc]
    exact isAlphanum_hexDigit (Nat.mod_lt _ (by norm_num))

/-! ### The parent -/

section Parent

variable (U : UlidText)

/-- The parent's fields have no character that separates anything but the slash. -/
theorem not_mem_parentText {c : Char} (hc : c.isAlphanum = false) (hslash : c ≠ '/')
    (parent : Option ParentRef) : c ∉ parentText U parent := by
  have hulid : ∀ u, c ∉ U.toText u := fun u h => by
    rw [U.isAlphanum_toText u c h] at hc
    cases hc
  cases parent with
  | none => exact not_mem_nil
  | some p =>
    simp only [parentText, Option.map_some, Option.getD_some, ParentRef.toDisplay, mem_append,
      mem_cons, not_or]
    exact ⟨hulid _, hslash, hulid _⟩

theorem not_mem_parentPubkeyText {c : Char} (hc : c.isAlphanum = false)
    (parent : Option ParentRef) : c ∉ parentPubkeyText parent := by
  cases parent with
  | none => exact not_mem_nil
  | some p =>
    intro h
    rw [isAlphanum_encodeHex h] at hc
    cases hc

theorem slash_not_mem (u : Ulid) : '/' ∉ U.toText u := fun h => by
  have := U.isAlphanum_toText u '/' h
  cases this

theorem splitOnce_toDisplay (p : ParentRef) : splitOnce '/' (p.toDisplay U) =
    some (U.toText p.volumeUlid, U.toText p.snapshotUlid) :=
  splitOnce_append (slash_not_mem U _) _

theorem toDisplay_ne_nil (p : ParentRef) : p.toDisplay U ≠ [] := by
  simp [ParentRef.toDisplay]

theorem encodeHex_pubkey_ne_nil (p : ParentRef) : encodeHex p.pubkey.toList ≠ [] := by
  intro h
  have hread := decodeHex_encodeHex p.pubkey.toList
  rw [h] at hread
  have hlen := congrArg length (ok.inj hread)
  simp at hlen

/-- The two fields read back. -/
theorem parseParent_text (debug : Text → Text) (file : Text) (parent : Option ParentRef) :
    parseParent U debug file (nonEmpty (parentText U parent)) (nonEmpty (parentPubkeyText parent)) =
      .ok parent := by
  cases parent with
  | none => rfl
  | some p =>
    have htext : nonEmpty (parentText U (some p)) = some (p.toDisplay U) := by
      simp [nonEmpty, parentText, toDisplay_ne_nil]
    have hkey : nonEmpty (parentPubkeyText (some p)) = some (encodeHex p.pubkey.toList) := by
      simp [nonEmpty, parentPubkeyText, encodeHex_pubkey_ne_nil]
    rw [htext, hkey]
    have hlen : p.pubkey.toList.length = 32 := p.pubkey.length_toList
    have hvec : (⟨p.pubkey.toList.toArray, hlen⟩ : Vector UInt8 32) = p.pubkey := by
      ext i hi
      simp
    simp [parseParent, splitOnce_toDisplay, U.fromText_toText, decodeHex_encodeHex, hvec]

/-- The two fields say which parent it is. -/
theorem parent_eq_of_texts {a b : Option ParentRef} (htext : parentText U a = parentText U b)
    (hkey : parentPubkeyText a = parentPubkeyText b) : a = b := by
  have ha := parseParent_text U id [] a
  rw [htext, hkey, parseParent_text U id [] b] at ha
  exact (ok.inj ha).symm

end Parent

/-! ### The signed values -/

namespace ProvenanceLineage

variable (U : UlidText) (lineage : ProvenanceLineage)

/-- The values signed after the parent's key. -/
def parts : List Text :=
  lineage.extentIndex ++ (match lineage.ociSource with
    | some src => [src.image, src.digest, src.arch]
    | none => []) ++
  if lineage.recoverySources.isEmpty then []
  else PROVENANCE_RECOVERY_SOURCES_DOMAIN :: lineage.recoverySources.map U.toText

theorem signingInput_eq : provenanceSigningInput U lineage =
    parentText U lineage.parent ++ '\x00' :: (parentPubkeyText lineage.parent ++
      tagged '\x00' (lineage.parts U)) := by
  rw [provenanceSigningInput, parts, tagged_append, tagged_append, append_assoc]
  cases lineage.ociSource <;> split_ifs <;> rfl

/-- Equal bytes have equal parents and equal values, up to where the values are cut. -/
theorem eq_of_signingInput {a b : ProvenanceLineage}
    (h : provenanceSigningInput U a = provenanceSigningInput U b) :
    a.parent = b.parent ∧ tagged '\x00' (a.parts U) = tagged '\x00' (b.parts U) := by
  have hsep : Char.isAlphanum '\x00' = false := by decide
  -- the parent's key and the values are the first part of a longer list of parts
  have hform : ∀ l : ProvenanceLineage, provenanceSigningInput U l = parentText U l.parent ++
      tagged '\x00' (parentPubkeyText l.parent :: l.parts U) := signingInput_eq U
  rw [hform, hform] at h
  obtain ⟨htext, hrest⟩ := append_tagged_inj (not_mem_parentText U hsep (by decide) _)
    (not_mem_parentText U hsep (by decide) _) h
  obtain ⟨hkey, hparts⟩ := append_tagged_inj (not_mem_parentPubkeyText hsep _)
    (not_mem_parentPubkeyText hsep _) (cons.inj hrest).2
  exact ⟨parent_eq_of_texts U htext hkey, hparts⟩

/-- No OCI source, no recovery grant and at most one entry in the extent index. -/
def Plain : Prop :=
  lineage.ociSource = none ∧ lineage.recoverySources = [] ∧ lineage.extentIndex.length ≤ 1

instance : Decidable lineage.Plain :=
  inferInstanceAs (Decidable (_ ∧ _ ∧ _))

theorem plain_iff_length_parts : lineage.Plain ↔ (lineage.parts U).length ≤ 1 := by
  rw [Plain, parts]
  cases hoci : lineage.ociSource with
  | some src =>
    refine iff_of_false (fun h => by cases h.1) (not_le.mpr ?_)
    simp only [length_append, length_cons]
    omega
  | none =>
    cases hrec : lineage.recoverySources with
    | nil => simp
    | cons u us =>
      refine iff_of_false (fun h => by cases h.2.1) (not_le.mpr ?_)
      simp only [isEmpty_cons, Bool.false_eq_true, if_false, length_append, length_cons,
        length_map]
      omega

theorem parts_of_plain {lineage : ProvenanceLineage} (h : lineage.Plain) :
    lineage.parts U = lineage.extentIndex := by
  simp [parts, h.1, h.2.1]

theorem fromParts_singleton (parent : Option ParentRef) (entry : Text) :
    (fromParts parent [entry] []).parent = parent ∧
      (fromParts parent [entry] []).extentIndex = [entry] ∧ (fromParts parent [entry] []).Plain := by
  cases parent with
  | none | some => exact ⟨rfl, rfl, rfl, rfl, le_rfl⟩

/-- The reader makes no recovery without a source. -/
theorem parseVariant_sources {file : Text} {parent : Option ParentRef} {extentIndex : List Text}
    {oci : Option OciSource} {sources : List Ulid} {l : ProvenanceLineage}
    (h : parseVariant file parent extentIndex oci sources = .ok l) :
    l = .recovering parent extentIndex sources ∧ sources ≠ [] ∨
      (∃ p, l = .fork p extentIndex) ∨ l = .root extentIndex oci := by
  unfold parseVariant at h
  cases sources with
  | cons u us =>
    simp only [isEmpty_cons, Bool.not_false, if_true] at h
    split_ifs at h
    exact .inl ⟨(ok.inj h).symm, cons_ne_nil _ _⟩
  | nil =>
    simp only [isEmpty_nil, Bool.not_true, Bool.false_eq_true, if_false] at h
    cases parent with
    | some p =>
      split_ifs at h
      exact .inr (.inl ⟨p, (ok.inj h).symm⟩)
    | none => exact .inr (.inr (ok.inj h).symm)

/-- A lineage of the kind that is read back. -/
def Proper : Prop :=
  ∀ parent extentIndex, lineage ≠ .recovering parent extentIndex []

/-- Proper lineages without OCI source and recovery grant are told apart by parent and entries. -/
theorem eq_of_plain {a b : ProvenanceLineage} (ha : a.Proper) (hb : b.Proper) (hpa : a.Plain)
    (hpb : b.Plain) (hparent : a.parent = b.parent) (hindex : a.extentIndex = b.extentIndex) :
    a = b := by
  have hcases : ∀ l : ProvenanceLineage, l.Proper → l.Plain →
      l = fromParts l.parent l.extentIndex [] := by
    intro l hl hplain
    cases l with
    | root e oci => rw [show oci = none from hplain.1]; rfl
    | fork p e => rfl
    | recovering p e rs => exact absurd (by rw [show rs = [] from hplain.2.1]) (hl p e)
  rw [hcases a ha hpa, hcases b hb hpb, hparent, hindex]

end ProvenanceLineage

/-! ### Another reading of the same bytes -/

section Forged

variable (U : UlidText) (debug : Text → Text) (file : Text)

theorem proper_of_parse {text : Text} {l : ProvenanceLineage} {sig : List UInt8}
    (h : parseProvenance U debug file text = .ok (l, sig)) : l.Proper := by
  rw [parseProvenance] at h
  split at h
  · cases h
  · rw [ProvenanceFields.finish] at h
    split at h <;> try cases h
    split at h
    · cases h
    · split at h
      · cases h
      · obtain ⟨l', hl', heq⟩ : ∃ l', parseVariant file _ _ _ _ = .ok l' ∧ l' = l := by
          rcases hv : parseVariant file _ _ _ _ with e | l'
          · rw [hv] at h
            cases h
          · rw [hv] at h
            exact ⟨l', hv, (Prod.mk.inj (ok.inj h)).1⟩
        subst heq
        intro parent extentIndex hrec
        rcases parseVariant_sources hl' with ⟨hl, hne⟩ | ⟨p, hl⟩ | hl
        · rw [hrec] at hl
          exact hne (recovering.inj hl).2.2.symm
        · rw [hrec] at hl
          cases hl
        · rw [hrec] at hl
          cases hl

/-- A file with a single entry in its extent index, in its last line. -/
def singleEntryFile (parent : Option ParentRef) (entry : Text) (sig : List UInt8) : Text :=
  fieldLine "parent: " (parentText U parent) ++
  (fieldLine "parent_pubkey: " (parentPubkeyText parent) ++
  (fieldLine "sig: " (encodeHex sig) ++
  (fieldLine "extent_index:" [] ++ ("  ".toList ++ entry))))

theorem lines_fieldLine {key : String} {value : Text} (hnl : '\n' ∉ key.toList ++ value)
    (hcr : '\r' ∉ key.toList ++ value) (rest : Text) :
    lines (fieldLine key value ++ rest) = (key.toList ++ value) :: lines rest := by
  rw [fieldLine, append_assoc, singleton_append, lines_line hnl, stripCr_of_not_mem hcr]

theorem lines_singleEntryFile (parent : Option ParentRef) {entry : Text} (hnl : '\n' ∉ entry)
    (sig : List UInt8) : lines (singleEntryFile U parent entry sig) =
      ["parent: ".toList ++ parentText U parent,
        "parent_pubkey: ".toList ++ parentPubkeyText parent,
        "sig: ".toList ++ encodeHex sig, "extent_index:".toList, "  ".toList ++ entry] := by
  have hn : Char.isAlphanum '\n' = false := by decide
  have hr : Char.isAlphanum '\r' = false := by decide
  have hhex : ∀ {c : Char}, c.isAlphanum = false → c ∉ encodeHex sig := fun hc h => by
    rw [isAlphanum_encodeHex h] at hc
    cases hc
  rw [singleEntryFile, lines_fieldLine, lines_fieldLine, lines_fieldLine, lines_fieldLine,
    lines_last]
  · rfl
  · exact not_mem_append (by decide) hnl
  · simp
  · decide
  · decide
  · exact not_mem_append (by decide) (hhex hn)
  · exact not_mem_append (by decide) (hhex hr)
  · exact not_mem_append (by decide) (not_mem_parentPubkeyText hn _)
  · exact not_mem_append (by decide) (not_mem_parentPubkeyText hr _)
  · exact not_mem_append (by decide) (not_mem_parentText U hn (by decide) _)
  · exact not_mem_append (by decide) (not_mem_parentText U hr (by decide) _)

section Lines

variable {f : ProvenanceFields} (hf : f.openList = .none)

include hf

/-- A line outside all lists is a field. -/
theorem readLine_eq_readField (line : Text) : readLine U debug file f line = readField f line := by
  simp [readLine, hf]

theorem readLine_parent (value : Text) : readLine U debug file f ("parent: ".toList ++ value) =
    .ok { f with parent := some (nonEmpty value) } := by
  have hline : classifyLine ("parent: ".toList ++ value) = .parent value := by
    simp [classifyLine, keyed, dropPrefix?]
  rw [readLine_eq_readField U debug file hf, readField, hline, ← hf]

theorem readLine_parentPubkey (value : Text) :
    readLine U debug file f ("parent_pubkey: ".toList ++ value) =
      .ok { f with parentPubkey := some (nonEmpty value) } := by
  have hline : classifyLine ("parent_pubkey: ".toList ++ value) = .parentPubkey value := by
    simp [classifyLine, keyed, dropPrefix?]
  rw [readLine_eq_readField U debug file hf, readField, hline, ← hf]

theorem readLine_sig (sig : List UInt8) :
    readLine U debug file f ("sig: ".toList ++ encodeHex sig) = .ok { f with sig := some sig } := by
  have hline : classifyLine ("sig: ".toList ++ encodeHex sig) = .sig (encodeHex sig) := by
    simp [classifyLine, keyed, dropPrefix?]
  rw [readLine_eq_readField U debug file hf, readField, hline]
  dsimp only
  rw [decodeHex_encodeHex, ← hf]
  rfl

theorem readLine_extentIndex : readLine U debug file f "extent_index:".toList =
    .ok { f with extentIndex := some [], openList := .extentIndex } := by
  have hline : classifyLine "extent_index:".toList = .extentIndex := by decide
  rw [readLine_eq_readField U debug file hf, readField, hline]

end Lines

theorem readLine_entry {f : ProvenanceFields} (hf : f.openList = .extentIndex) (entry : Text) :
    readLine U debug file f ("  ".toList ++ entry) =
      .ok { f with extentIndex := f.extentIndex.map (· ++ [entry]) } := by
  have hline : dropPrefix? ("  ".toList ++ entry) "  ".toList = some entry := by
    simp [dropPrefix?]
  simp only [readLine, hf, hline]

theorem foldlM_cons_ok {ε α β : Type} {step : β → α → Except ε β} {a : α} {as : List α} {b c : β}
    (h : step b a = .ok c) : (a :: as).foldlM step b = as.foldlM step c := by
  rw [foldlM_cons, h]
  rfl

theorem parse_singleEntryFile (parent : Option ParentRef) {entry : Text} (hnl : '\n' ∉ entry)
    (sig : List UInt8) : parseProvenance U debug file (singleEntryFile U parent entry sig) =
      .ok (.fromParts parent [entry] [], sig) := by
  have hread : (lines (singleEntryFile U parent entry sig)).foldlM (readLine U debug file) {} =
      .ok { parent := some (nonEmpty (parentText U parent))
            parentPubkey := some (nonEmpty (parentPubkeyText parent))
            extentIndex := some [entry]
            sig := some sig
            openList := .extentIndex } := by
    rw [lines_singleEntryFile U parent hnl, foldlM_cons_ok (readLine_parent U debug file rfl _),
      foldlM_cons_ok (readLine_parentPubkey U debug file rfl _),
      foldlM_cons_ok (readLine_sig U debug file rfl sig),
      foldlM_cons_ok (readLine_extentIndex U debug file rfl),
      foldlM_cons_ok (readLine_entry U debug file rfl entry)]
    rfl
  rw [parseProvenance, hread]
  simp only [ProvenanceFields.finish, parseParent_text]
  cases parent <;> rfl

end Forged

/-! ### What the signature fixes -/

/-- A lineage as the writers make them: the entries of the extent index are pairs of ULIDs with a
slash between them, the OCI source is a reference, a digest and an architecture, and a recovery
names a source. None of the texts has a newline or a NUL. -/
structure WrittenLineage where
  lineage : ProvenanceLineage
  proper : lineage.Proper
  extentIndex : ∀ entry ∈ lineage.extentIndex, '\n' ∉ entry ∧ '\x00' ∉ entry
  ociSource : ∀ src ∈ lineage.ociSource, ∀ value ∈ [src.image, src.digest, src.arch],
    '\n' ∉ value ∧ '\x00' ∉ value

namespace WrittenLineage

variable (U : UlidText) (w : WrittenLineage)

/-- No value signed after the parent's key has a newline. -/
theorem newline_not_mem : ∀ part ∈ w.lineage.parts U, '\n' ∉ part := by
  intro part hpart
  rw [parts, mem_append, mem_append] at hpart
  rcases hpart with (hpart | hpart) | hpart
  · exact (w.extentIndex part hpart).1
  · cases hoci : w.lineage.ociSource with
    | none =>
      rw [hoci] at hpart
      cases hpart
    | some src =>
      rw [hoci] at hpart
      exact (w.ociSource src hoci part hpart).1
  · split_ifs at hpart
    · cases hpart
    · rcases mem_cons.mp hpart with rfl | hpart
      · decide
      · obtain ⟨u, -, rfl⟩ := mem_map.mp hpart
        intro h
        have := U.isAlphanum_toText u _ h
        cases this

/-- A signature over the lineage that verifies for no other message, by the key `verify`. -/
structure SignedBy (verify : Text → List UInt8 → Bool) (sig : List UInt8) : Prop where
  length : sig.length = 64
  verifies : verify (provenanceSigningInput U w.lineage) sig = true
  only : ∀ msg, verify msg sig = true → msg = provenanceSigningInput U w.lineage

/-- Every file text with the signature that verifies gives the lineage back. -/
def SignatureFixes : Prop :=
  ∀ verify sig, w.SignedBy U verify sig → ∀ debug file text lineage,
    (∃ parsed, parseProvenance U debug file text = .ok (parsed, sig)) →
      verifyLineageWithKey U debug file verify text = .ok lineage → lineage = w.lineage

/-- Files that verify under the signature are proper readings of the signed bytes. -/
theorem verifyLineage_iff {verify : Text → List UInt8 → Bool} {sig : List UInt8}
    (hsig : w.SignedBy U verify sig) {debug : Text → Text} {file text : Text}
    {parsed : ProvenanceLineage} (hparse : parseProvenance U debug file text = .ok (parsed, sig))
    (lineage : ProvenanceLineage) :
    verifyLineageWithKey U debug file verify text = .ok lineage ↔
      lineage = parsed ∧ provenanceSigningInput U parsed = provenanceSigningInput U w.lineage := by
  rw [verifyLineageWithKey, hparse]
  dsimp only
  rw [if_pos hsig.length]
  split_ifs with hverify
  · rw [ok.injEq, eq_comm, and_iff_left (hsig.only _ hverify)]
  · refine iff_of_false (fun h => by cases h) fun h => hverify ?_
    rw [h.2]
    exact hsig.verifies

/-- **A signature fixes the lineage exactly when it is plain.** No file text that carries the
signature is accepted as another lineage if and only if the signed one has no OCI source, no recovery
grant and at most one entry in its extent index. -/
theorem signature_fixes_iff : w.SignatureFixes U ↔ w.lineage.Plain := by
  constructor
  · intro h
    by_contra hplain
    have hlen := (plain_iff_length_parts U w.lineage).not.mp hplain
    -- read all values as one entry
    obtain ⟨part, parts, hparts⟩ : ∃ part parts, w.lineage.parts U = part :: parts := by
      cases hp : w.lineage.parts U with
      | nil => simp [hp] at hlen
      | cons part parts => exact ⟨part, parts, rfl⟩
    let entry : Text := part ++ tagged '\x00' parts
    let sig : List UInt8 := List.replicate 64 0
    let forged := fromParts w.lineage.parent [entry] []
    have hnl : '\n' ∉ entry := by
      have hmem := w.newline_not_mem U
      rw [hparts] at hmem
      refine not_mem_append (hmem _ mem_cons_self) fun hc => ?_
      obtain ⟨p, hp, hc⟩ := (mem_tagged (by decide)).mp hc
      exact hmem p (mem_cons_of_mem _ hp) hc
    obtain ⟨hparent, hindex, hforged⟩ :=
      fromParts_singleton w.lineage.parent entry
    have hinput : provenanceSigningInput U forged = provenanceSigningInput U w.lineage := by
      rw [signingInput_eq, signingInput_eq, hparent,
        parts_of_plain U hforged, hindex, hparts, tagged_merge]
    have hsigned : w.SignedBy U
        (fun msg _ => decide (msg = provenanceSigningInput U w.lineage)) sig :=
      ⟨by simp [sig], decide_eq_true rfl, fun _ => of_decide_eq_true⟩
    have hparse := parse_singleEntryFile U id [] w.lineage.parent hnl sig
    refine hplain ?_
    rw [← h _ sig hsigned id [] _ forged ⟨forged, hparse⟩
      ((w.verifyLineage_iff U hsigned hparse forged).mpr ⟨rfl, hinput⟩)]
    exact hforged
  · rintro hplain verify sig hsig debug file text lineage ⟨parsed, hparse⟩ hverify
    obtain ⟨rfl, hinput⟩ := (w.verifyLineage_iff U hsig hparse lineage).mp hverify
    obtain ⟨hparent, htagged⟩ := eq_of_signingInput U hinput
    -- at most one value, and it has no NUL
    have hparts : lineage.parts U = w.lineage.parts U := by
      rw [parts_of_plain U hplain] at htagged ⊢
      rcases hindex : w.lineage.extentIndex with _ | ⟨entry, entries⟩
      · rw [hindex] at htagged
        exact tagged_eq_nil.mp htagged
      · have hnil : entries = [] := by
          have := hplain.2.2
          rw [hindex] at this
          simpa using this
        rw [hindex, hnil] at htagged
        rw [hnil]
        refine (tagged_eq_singleton (w.extentIndex entry ?_).2).mp htagged
        rw [hindex]
        exact mem_cons_self
    have hplain' : lineage.Plain := by
      rw [plain_iff_length_parts U, hparts, ← plain_iff_length_parts]
      exact hplain
    refine eq_of_plain (proper_of_parse U debug file hparse) w.proper hplain' hplain hparent ?_
    rwa [parts_of_plain U hplain, parts_of_plain U hplain'] at hparts

namespace OciReadAsEntries

/-- The import of an image. -/
def imported : WrittenLineage where
  lineage := .root [] (some ⟨"ubuntu".toList, "sha256:0".toList, "amd64".toList⟩)
  proper _ _ h := by cases h
  extentIndex _ h := by cases h
  ociSource := by decide

/-- A key for which one signature verifies for the import alone. -/
def verify (msg : Text) (sig : List UInt8) : Bool :=
  decide (msg = provenanceSigningInput .crockford imported.lineage) && decide (sig.length = 64)

/-- The import's signature, with the image, digest and architecture as entries. -/
def text : Text :=
  "parent: \nparent_pubkey: \nextent_index:\n  ubuntu\n  sha256:0\n  amd64\n".toList ++
    "sig: ".toList ++ List.replicate 128 '0'

end OciReadAsEntries

open OciReadAsEntries in
/-- **An OCI source read as entries of the extent index.** -/
theorem oci_read_as_entries : verifyLineageWithKey .crockford id [] verify text =
      .ok (.root ["ubuntu".toList, "sha256:0".toList, "amd64".toList] none) ∧
    ¬ imported.SignatureFixes .crockford := by
  have hparse : parseProvenance .crockford id [] text =
      .ok (.root ["ubuntu".toList, "sha256:0".toList, "amd64".toList] none,
        List.replicate 64 0) := by decide +kernel
  have hsigned : imported.SignedBy .crockford verify (List.replicate 64 0) :=
    ⟨rfl, by decide +kernel, fun _ h => of_decide_eq_true (Bool.and_eq_true_iff.mp h).1⟩
  have hverify : verifyLineageWithKey .crockford id [] verify text =
      .ok (.root ["ubuntu".toList, "sha256:0".toList, "amd64".toList] none) :=
    (imported.verifyLineage_iff .crockford hsigned hparse _).mpr ⟨rfl, by rfl⟩
  refine ⟨hverify, fun h => ?_⟩
  have := h verify _ hsigned id [] text _ ⟨_, hparse⟩ hverify
  cases this

end WrittenLineage

end Elide
