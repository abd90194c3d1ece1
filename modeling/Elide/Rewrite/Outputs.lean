import Elide.Lib.Run
import Elide.Rewrite.Derived

/-!
# What each record of a plan materialises to

The setting is one in which every body can be read: `Readable ctx plaintext` says that locations,
stored bytes and delta blobs decode to the plaintext of the hash they stand for. Under it a record
that fits its entry either cancels, for one of two reasons the extent index and the entry decide
(`Accepted`), or appends at most one entry, whose range and decoded bytes are those of the record
(`Renders`) and whose kind and hash come from its input entry (`Derived`).

## Main results

* `MaterialiseCtx.Readable.computeCompositeBody` — the composite is the plaintext of the hash
* `MaterialiseCtx.Readable.applyOneOutput` — one record, when it is accepted
* `MaterialiseCtx.Readable.cancels_applyOutputs` — a plan with a record that is not accepted
* `MaterialiseCtx.Readable.rendered` — a plan that went through
* `MaterialiseCtx.Readable.applyOutputs` — a plan whose records are accepted
-/

namespace Elide

open Rewrite List PendingEntry EntryKind MaterialiseCtx PlanOutput Option

/-- The bytes of so many zero blocks. -/
def zeroBytes (blocks : ℕ) : Bytes := List.replicate (blocks * BLOCK_BYTES) 0

/-- So many blocks of a body, from a block on. -/
def sliceBlocks (body : Bytes) (start blocks : ℕ) : Bytes :=
  (body.drop (start * BLOCK_BYTES)).take (blocks * BLOCK_BYTES)

/-- The decoder undoes what the encoder does, and the encoder does not fail. -/
structure Codecs.Lawful (c : Codecs) : Prop where
  decode_none : ∀ b, c.decode .none b = .ok b
  decode_compressBody : ∀ {b journal codec stored},
    c.compressBody b journal = .ok (some (codec, stored)) → c.decode codec stored = .ok b
  compressBody_ok : ∀ b journal, ∃ r, c.compressBody b journal = .ok r

variable {ctx : MaterialiseCtx} {plaintext : Hash → Bytes} {input : Ulid} {entryIdx : ℕ}
  {state : InputState} {entry : SegmentEntry} {deltaBody : Bytes} {p : PendingEntry}
  {content : Bytes} {o : PlanOutput} {st st' : MaterialiseCtx.State}

namespace MaterialiseCtx

/-- The context holds the input's state, and the entry at that index. -/
structure HasEntry (ctx : MaterialiseCtx) (input : Ulid) (entryIdx : ℕ) (state : InputState)
    (entry : SegmentEntry) : Prop where
  loaded : ctx.inputStates input = some state
  at_idx : state.entries[entryIdx]? = some entry

/-- Every body can be read and is the plaintext of its hash. -/
structure Readable (ctx : MaterialiseCtx) (plaintext : Hash → Bytes) : Prop where
  codecs : ctx.codecs.Lawful
  /-- What the data map locates. -/
  located : ∀ {hash loc}, ctx.extentIndex.lookup hash = some loc →
    ctx.readLocation loc = .ok (plaintext hash)
  /-- The stored bytes of the inputs, against their tags and decoded. -/
  stored : ∀ {input entryIdx state entry}, ctx.HasEntry input entryIdx state entry →
    entry.kind.hasBodyBytes = true → ∃ bytes, ctx.readStored input entryIdx state entry = .ok bytes ∧
      ctx.verifyStored (state.storedHashes entryIdx) entry bytes = .ok () ∧
      ctx.codecs.decode entry.codec bytes = .ok (plaintext entry.hash)
  /-- A Delta has an option. -/
  options : ∀ {input entryIdx state entry}, ctx.HasEntry input entryIdx state entry →
    entry.kind.isDelta = true → entry.deltaOptions ≠ []
  /-- The blobs of the inputs, applied to their sources. -/
  blobs : ∀ {input entryIdx state entry}, ctx.HasEntry input entryIdx state entry →
    entry.kind.isDelta = true → ∀ opt ∈ entry.deltaOptions, ∃ blob,
      ctx.readInputDeltaBlob input state opt.deltaOffset opt.deltaLength = .ok blob ∧
      blob.length = opt.deltaLength ∧
      ctx.codecs.applyDelta (plaintext opt.sourceHash) blob = .ok (plaintext entry.hash)
  hashed : ∀ {input entryIdx state entry}, ctx.HasEntry input entryIdx state entry →
    entry.kind.ownsExtentHash = true → ctx.codecs.blake3 (plaintext entry.hash) = entry.hash
  /-- A claim is as long as its payload. -/
  sized : ∀ {input entryIdx state entry}, ctx.HasEntry input entryIdx state entry →
    entry.kind ≠ .zero → entry.kind.isCanonicalOnly = false →
    (plaintext entry.hash).length = entry.lbaLength * BLOCK_BYTES

/-! ## Input entries -/

/-- The tier guard lets the entry through. -/
def TierAllowed (ctx : MaterialiseCtx) (entry : SegmentEntry) : Prop :=
  entry.journal = true → ctx.allowJournal = true

section

variable (h : ctx.HasEntry input entryIdx state entry)
include h

theorem HasEntry.inputEntry_of_tierAllowed (htier : ctx.TierAllowed entry) :
    ctx.inputEntry input entryIdx = .ok (state, entry) := by
  have hguard : (entry.journal && !ctx.allowJournal) = false := by
    cases hj : entry.journal with
    | false => rfl
    | true => simp [htier hj]
  simp [inputEntry, h.loaded, h.at_idx, hguard]

theorem HasEntry.inputEntry_of_not_tierAllowed (htier : ¬ ctx.TierAllowed entry) :
    ctx.inputEntry input entryIdx = .error (.cancel (.internal (.journalTier input entryIdx))) := by
  have hguard : entry.journal = true ∧ ctx.allowJournal = false := by
    simpa [TierAllowed] using htier
  simp [inputEntry, h.loaded, h.at_idx, hguard.1, hguard.2]

theorem Readable.verifiedStored (hr : ctx.Readable plaintext)
    (hbody : entry.kind.hasBodyBytes = true) :
    ∃ bytes, ctx.verifiedStored input entryIdx state entry = .ok bytes ∧
      ctx.codecs.decode entry.codec bytes = .ok (plaintext entry.hash) := by
  obtain ⟨bytes, hread, hverify, hdecode⟩ := hr.stored h hbody
  refine ⟨bytes, ?_, hdecode⟩
  rw [MaterialiseCtx.verifiedStored, hread, Run.ok_bind, hverify]
  rfl

end

/-! ## Composite bodies -/

/-- The composite of the entry can be resolved: a reference through the data map, a Delta through
the source of one of its options. -/
def Resolvable (ctx : MaterialiseCtx) (entry : SegmentEntry) : Prop :=
  (entry.kind = .dedupRef → (ctx.extentIndex.lookup entry.hash).isSome = true) ∧
    (entry.kind = .delta →
      ∃ opt ∈ entry.deltaOptions, (ctx.extentIndex.lookup opt.sourceHash).isSome = true)

variable {hash : Hash}

theorem Readable.resolveBodyByHash (hr : ctx.Readable plaintext)
    (hsome : (ctx.extentIndex.lookup hash).isSome = true) :
    ctx.resolveBodyByHashDecompressed hash = .ok (plaintext hash) := by
  obtain ⟨loc, hloc⟩ := isSome_iff_exists.mp hsome
  rw [resolveBodyByHashDecompressed, hloc]
  exact hr.located hloc

section

variable (hr : ctx.Readable plaintext) (h : ctx.HasEntry input entryIdx state entry)
include hr h

theorem Readable.computeDeltaBody (hdelta : entry.kind.isDelta = true)
    (hsource : ∃ opt ∈ entry.deltaOptions, (ctx.extentIndex.lookup opt.sourceHash).isSome = true) :
    ctx.computeDeltaBody input entryIdx state entry = .ok (plaintext entry.hash) := by
  obtain ⟨opt, hfind⟩ := isSome_iff_exists.mp (List.find?_isSome.mpr hsource)
  have hmem := mem_of_find?_eq_some hfind
  have hsome : (ctx.extentIndex.lookup opt.sourceHash).isSome = true := List.find?_some
    (p := fun o : DeltaOption => (ctx.extentIndex.lookup o.sourceHash).isSome) hfind
  obtain ⟨blob, hblob, -, happly⟩ := hr.blobs h hdelta opt hmem
  have howns := ownsExtentHash_of_isDelta hdelta
  rw [MaterialiseCtx.computeDeltaBody, hfind]
  dsimp only
  rw [hr.resolveBodyByHash hsome, hblob]
  dsimp only [bind, Except.bind]
  rw [happly]
  dsimp only
  rw [if_pos (hr.hashed h howns)]

variable (hzero : entry.kind ≠ .zero) (hcanon : entry.kind.isCanonicalOnly = false)
  (hres : ctx.Resolvable entry)
include hzero hcanon hres

theorem Readable.compositeByKind :
    ctx.compositeByKind input entryIdx state entry = .ok (plaintext entry.hash) := by
  unfold MaterialiseCtx.compositeByKind
  cases hkind : entry.kind with
  | data | inline =>
    have hbody : entry.kind.hasBodyBytes = true := by rw [hkind]; rfl
    obtain ⟨bytes, hread, -, hdecode⟩ := hr.stored h hbody
    have howns := ownsExtentHash_of_hasBodyBytes hbody
    have hplain : ctx.decodeBody bytes entry.codec = .ok (plaintext entry.hash) := by
      rw [decodeBody, hdecode]
    have hverify : ctx.verifyPlaintext entry (plaintext entry.hash) = .ok () := by
      rw [verifyPlaintext, if_pos hbody]
      rw [if_pos (hr.hashed h howns)]
    dsimp only
    rw [hread, Run.ok_bind, hplain, Run.ok_bind, hverify]
    rfl
  | dedupRef => exact hr.resolveBodyByHash (hres.1 hkind)
  | delta => exact hr.computeDeltaBody h (by rw [hkind]; rfl) (hres.2 hkind)
  | zero => exact absurd hkind hzero
  | canonicalData | canonicalInline | canonicalDelta =>
    rw [hkind] at hcanon
    exact absurd hcanon (by decide)

/-- **The composite of an entry is the plaintext of its hash.** -/
theorem Readable.computeCompositeBody (htier : ctx.TierAllowed entry) :
    ctx.computeCompositeBody input entryIdx = .ok (plaintext entry.hash) := by
  rw [MaterialiseCtx.computeCompositeBody, h.inputEntry_of_tierAllowed htier, Run.ok_bind]
  dsimp only
  rw [hr.compositeByKind h hzero hcanon hres, Run.ok_bind, if_pos (hr.sized h hzero hcanon)]
  rfl

end

/-! ## What an output entry stands for -/

/-- The output entry decodes to `content`, beside the output's delta body: resolution by hash
returns the plaintext, and every option of a Delta rebuilds it. -/
def Decodes (ctx : MaterialiseCtx) (plaintext : Hash → Bytes) (deltaBody : Bytes)
    (p : PendingEntry) (content : Bytes) : Prop :=
  match p.entry.kind with
  | .zero => content = zeroBytes p.entry.lbaLength
  | .dedupRef => content = plaintext p.entry.hash
  | .data | .canonicalData =>
    ∃ stored, p.body = some stored ∧ ctx.codecs.decode p.entry.codec stored = .ok content
  | .inline | .canonicalInline =>
    ∃ stored, p.entry.inline = some stored ∧ ctx.codecs.decode p.entry.codec stored = .ok content
  | .delta | .canonicalDelta =>
    p.entry.deltaOptions ≠ [] ∧ ∀ opt ∈ p.entry.deltaOptions,
      opt.deltaOffset + opt.deltaLength ≤ deltaBody.length ∧
      ctx.codecs.applyDelta (plaintext opt.sourceHash)
        ((deltaBody.drop opt.deltaOffset).take opt.deltaLength) = .ok content

/-- A delta body that grows at its end rebuilds what it did. -/
theorem Decodes.append (h : ctx.Decodes plaintext deltaBody p content) (ext : Bytes) :
    ctx.Decodes plaintext (deltaBody ++ ext) p content := by
  have hslice : ∀ {start len : ℕ}, start + len ≤ deltaBody.length →
      ((deltaBody ++ ext).drop start).take len = (deltaBody.drop start).take len := by
    intro start len hle
    rw [drop_append_of_le_length (by omega), take_append_of_le_length]
    rw [length_drop]
    omega
  unfold Decodes at h ⊢
  split at h
  · exact h
  · exact h
  · exact h
  · exact h
  · exact h
  · exact h
  all_goals
    refine ⟨h.1, fun opt hopt => ?_⟩
    obtain ⟨hle, happly⟩ := h.2 opt hopt
    refine ⟨by rw [length_append]; omega, ?_⟩
    rw [hslice hle, happly]

/-- An output entry decodes to one thing. -/
theorem Decodes.unique {content' : Bytes} (h : ctx.Decodes plaintext deltaBody p content)
    (h' : ctx.Decodes plaintext deltaBody p content') : content = content' := by
  unfold Decodes at h h'
  cases hk : p.entry.kind <;> simp only [hk] at h h'
  case zero => exact h.trans h'.symm
  case dedupRef => exact h.trans h'.symm
  case delta | canonicalDelta =>
    obtain ⟨opt, hopt⟩ := exists_mem_of_ne_nil _ h.1
    exact Except.ok.inj ((h.2 opt hopt).2.symm.trans (h'.2 opt hopt).2)
  all_goals
    obtain ⟨stored, hbody, hdecode⟩ := h
    obtain ⟨stored', hbody', hdecode'⟩ := h'
    obtain rfl : stored = stored' := mem_unique hbody hbody'
    exact Except.ok.inj (hdecode.symm.trans hdecode')

theorem decodes_newData {startLba lbaLength : ℕ} {codec : Codec} {data : Bytes}
    (h : ctx.codecs.decode codec data = .ok content) :
    ctx.Decodes plaintext deltaBody (.newData hash startLba lbaLength codec data) content ∧
      ctx.Decodes plaintext deltaBody
        (newData hash startLba lbaLength codec data).intoCanonical content := by
  unfold newData
  split_ifs
  · exact ⟨⟨data, rfl, h⟩, ⟨data, rfl, h⟩⟩
  · exact ⟨⟨data, rfl, h⟩, ⟨data, rfl, h⟩⟩

/-- Carried blobs rebuild from the output's delta body what they did from the input's. -/
theorem carryDeltaBlobs_spec {opts : List DeltaOption}
    (hblobs : ∀ opt ∈ opts, ∃ blob,
      ctx.readInputDeltaBlob input state opt.deltaOffset opt.deltaLength = .ok blob ∧
      blob.length = opt.deltaLength ∧
      ctx.codecs.applyDelta (plaintext opt.sourceHash) blob = .ok content) (deltaBody : Bytes) :
    ∃ newOptions ext,
      ctx.carryDeltaBlobs input state opts deltaBody = .ok (newOptions, deltaBody ++ ext) ∧
      newOptions.length = opts.length ∧ ∀ opt ∈ newOptions,
        opt.deltaOffset + opt.deltaLength ≤ (deltaBody ++ ext).length ∧
        ctx.codecs.applyDelta (plaintext opt.sourceHash)
          (((deltaBody ++ ext).drop opt.deltaOffset).take opt.deltaLength) = .ok content := by
  induction opts generalizing deltaBody with
  | nil => exact ⟨[], [], by rw [append_nil]; rfl, rfl, by simp⟩
  | cons opt opts ih =>
    obtain ⟨blob, hread, hlen, happly⟩ := hblobs opt mem_cons_self
    obtain ⟨newOptions, ext, hcarry, hlength, hrest⟩ :=
      ih (fun o ho => hblobs o (mem_cons_of_mem _ ho)) (deltaBody ++ blob)
    rw [append_assoc] at hcarry hrest
    refine ⟨{ opt with deltaOffset := deltaBody.length } :: newOptions, blob ++ ext, ?_, ?_, ?_⟩
    · rw [carryDeltaBlobs, hread, Run.ok_bind, hcarry]
      rfl
    · rw [length_cons, length_cons, hlength]
    · intro o ho
      rcases mem_cons.mp ho with rfl | ho
      · refine ⟨by simp only [length_append]; omega, ?_⟩
        rw [drop_left, ← hlen, take_left, happly]
      · exact hrest o ho

end MaterialiseCtx

/-! ## What a record asks for -/

namespace PlanOutput

/-- The bytes the record's entry stands for, given the input entry. -/
def payload (plaintext : Hash → Bytes) (entry : SegmentEntry) : PlanOutput → Bytes
  | keep _ _ => if entry.kind = .zero then zeroBytes entry.lbaLength else plaintext entry.hash
  | zeroSplit _ _ _ lbaLength => zeroBytes lbaLength
  | canonical _ _ => plaintext entry.hash
  | run _ _ payloadBlockOffset _ lbaLength =>
    sliceBlocks (plaintext entry.hash) payloadBlockOffset lbaLength
  | drop _ => []

end PlanOutput

namespace MaterialiseCtx

/-- The output entry is the one the record asks for. -/
structure Renders (ctx : MaterialiseCtx) (plaintext : Hash → Bytes) (deltaBody : Bytes)
    (entry : SegmentEntry) (o : PlanOutput) (p : PendingEntry) : Prop where
  range : (p.entry.startLba, p.entry.lbaLength) = o.range entry
  decodes : ctx.Decodes plaintext deltaBody p (o.payload plaintext entry)
  /-- An entry passed on whole keeps its hash in a body- or recipe-bearing entry. -/
  carries : o.CarriesWhole → entry.kind.ownsExtentHash = true →
    p.entry.hash = entry.hash ∧ p.entry.kind.ownsExtentHash = true

variable (ctx)

/-- The record is one the classifier can emit for the entry. -/
def Placed (entry : SegmentEntry) : PlanOutput → Prop
  | .keep input entryIdx => ∃ state, ctx.HasEntry input entryIdx state entry
  | .zeroSplit input entryIdx _ _ =>
    (∃ state, ctx.HasEntry input entryIdx state entry) ∧ entry.kind = .zero
  | .canonical input entryIdx =>
    (∃ state, ctx.HasEntry input entryIdx state entry) ∧ entry.kind.ownsExtentHash = true
  | .run input entryIdx payloadBlockOffset _ lbaLength =>
    (∃ state, ctx.HasEntry input entryIdx state entry) ∧ entry.kind ≠ .zero ∧
      entry.kind.isCanonicalOnly = false ∧
      (entry.kind = .delta →
        ∃ opt ∈ entry.deltaOptions, (ctx.extentIndex.lookup opt.sourceHash).isSome = true) ∧
      payloadBlockOffset + lbaLength ≤ entry.lbaLength
  | .drop _ => False

/-- The record does not cancel: its entry is in a tier the pass permits, and a run of a reference
finds the referenced hash in the data map. -/
def Accepted (entry : SegmentEntry) : PlanOutput → Prop
  | .run _ _ _ _ lbaLength =>
    lbaLength = 0 ∨ ctx.TierAllowed entry ∧
      (entry.kind = .dedupRef → (ctx.extentIndex.lookup entry.hash).isSome = true)
  | _ => ctx.TierAllowed entry

/-- The slot holds the composite of its key. -/
def SlotOk (st : State) : Prop :=
  ∀ s, st.slot = some s → ctx.computeCompositeBody s.key.1 s.key.2 = .ok s.body

variable {ctx}

/-- The state after a record: its entry, if it has one, is the last, and the delta body has grown
at its end. -/
structure Grows (ctx : MaterialiseCtx) (plaintext : Hash → Bytes) (entry : SegmentEntry)
    (o : PlanOutput) (st st' : State) : Prop where
  slotOk : ctx.SlotOk st'
  deltaBody : ∃ ext, st'.deltaBody = st.deltaBody ++ ext
  entries : (∃ p, st'.entries = st.entries ++ [p] ∧ ctx.Renders plaintext st'.deltaBody entry o p) ∨
    st'.entries = st.entries ∧ (o.range entry).2 = 0 ∧ ¬ o.CarriesWhole

/-- One more entry. What is derived from its input entry carries the hash on. -/
theorem grows_append {st' : State} {ext : Bytes} (hslot : ctx.SlotOk st')
    (hbody : st'.deltaBody = st.deltaBody ++ ext) (hentries : st'.entries = st.entries ++ [p])
    (hrange : (p.entry.startLba, p.entry.lbaLength) = o.range entry)
    (hdecodes : ctx.Decodes plaintext st'.deltaBody p (o.payload plaintext entry))
    (hderived : Derived entry o p) :
    ctx.Grows plaintext entry o st st' ∧ Appends entry o st st' := by
  refine ⟨⟨hslot, ⟨ext, hbody⟩, .inl ⟨p, hentries, hrange, hdecodes, fun hwhole howns => ?_⟩⟩,
    .inl ⟨p, hentries, hderived⟩⟩
  by_cases hbytes : entry.kind.hasBodyBytes = true
  · exact (hderived.body hwhole hbytes).imp_right ownsExtentHash_of_hasBodyBytes
  · have hdelta : entry.kind.isDelta = true := by
      cases hk : entry.kind <;> simp_all [hasBodyBytes, ownsExtentHash, isDelta]
    exact (hderived.delta hwhole hdelta).imp_right ownsExtentHash_of_isDelta

theorem grows_push (hslot : ctx.SlotOk st)
    (hrange : (p.entry.startLba, p.entry.lbaLength) = o.range entry)
    (hdecodes : ctx.Decodes plaintext st.deltaBody p (o.payload plaintext entry))
    (hderived : Derived entry o p) :
    ctx.Grows plaintext entry o st (st.push p) ∧ Appends entry o st (st.push p) :=
  grows_append hslot (append_nil _).symm rfl hrange hdecodes hderived

/-- The recipe of a Delta carried on, under any range. -/
theorem Readable.carryDelta (hr : ctx.Readable plaintext)
    (h : ctx.HasEntry input entryIdx state entry) (hdelta : entry.kind.isDelta = true)
    (deltaBody : Bytes) :
    ∃ newOptions ext, ctx.carryDeltaBlobs input state entry.deltaOptions deltaBody =
        .ok (newOptions, deltaBody ++ ext) ∧
      ∀ startLba lbaLength, ctx.Decodes plaintext (deltaBody ++ ext)
          (.fromEntry (.newDelta entry.hash startLba lbaLength newOptions))
          (plaintext entry.hash) ∧
        ctx.Decodes plaintext (deltaBody ++ ext)
          (fromEntry (.newDelta entry.hash startLba lbaLength newOptions)).intoCanonical
          (plaintext entry.hash) := by
  obtain ⟨newOptions, ext, hcarry, hlength, hopts⟩ :=
    carryDeltaBlobs_spec (hr.blobs h hdelta) deltaBody
  have hne : newOptions ≠ [] := by
    intro hnil
    rw [hnil] at hlength
    exact hr.options h hdelta (length_eq_zero_iff.mp hlength.symm)
  exact ⟨newOptions, ext, hcarry, fun _ _ => ⟨⟨hne, hopts⟩, ⟨hne, hopts⟩⟩⟩

theorem newData_range (hash : Hash) (startLba lbaLength : ℕ) (codec : Codec) (data : Bytes) :
    ((newData hash startLba lbaLength codec data).entry.startLba,
      (newData hash startLba lbaLength codec data).entry.lbaLength) =
      (startLba, lbaLength) := by
  unfold newData
  split_ifs <;> rfl

/-! ## One record -/

section

variable (hr : ctx.Readable plaintext) (h : ctx.HasEntry input entryIdx state entry)
  (htier : ctx.TierAllowed entry) (hslot : ctx.SlotOk st)
include hr h htier hslot

theorem Readable.emitKeep : ∃ st', ctx.emitKeep input entryIdx st = .ok st' ∧
      ctx.Grows plaintext entry (.keep input entryIdx) st st' ∧
      Appends entry (.keep input entryIdx) st st' := by
  unfold MaterialiseCtx.emitKeep
  rw [h.inputEntry_of_tierAllowed htier]
  dsimp only [bind, Except.bind]
  cases hkind : entry.kind with
  | zero =>
    refine ⟨_, rfl, grows_push hslot ?_ ?_ (derived_newZero hkind (by simp))⟩
    · simp [PlanOutput.range, hkind, isCanonicalOnly, fromEntry, SegmentEntry.newZero]
    · simp [payload, hkind, Decodes, fromEntry, SegmentEntry.newZero]
  | dedupRef =>
    refine ⟨_, rfl, grows_push hslot ?_ ?_ (derived_newDedupRef hkind (by simp))⟩
    · simp [PlanOutput.range, hkind, isCanonicalOnly, fromEntry, SegmentEntry.newDedupRef]
    · simp [payload, hkind, Decodes, fromEntry, SegmentEntry.newDedupRef]
  | data | inline =>
    obtain ⟨bytes, hstored, hdecode⟩ := hr.verifiedStored h (by rw [hkind]; rfl)
    rw [hstored]
    refine ⟨_, rfl, grows_push hslot ?_ ?_ ((derived_newData fun _ => ⟨rfl, by rw [hkind]; rfl⟩).1
      (by rw [hkind]; rfl) (by simp))⟩
    · simp [PlanOutput.range, hkind, isCanonicalOnly, newData_range]
    · simp only [payload, hkind]
      exact (decodes_newData hdecode).1
  | canonicalData | canonicalInline =>
    obtain ⟨bytes, hstored, hdecode⟩ := hr.verifiedStored h (by rw [hkind]; rfl)
    rw [hstored]
    refine ⟨_, rfl, grows_push hslot ?_ ?_ (derived_newData fun _ => ⟨rfl, by rw [hkind]; rfl⟩).2⟩
    · simp [PlanOutput.range, hkind, isCanonicalOnly, intoCanonical, SegmentEntry.intoCanonical]
    · simp only [payload, hkind]
      exact (decodes_newData hdecode).2
  | delta =>
    have hdelta : entry.kind.isDelta = true := by rw [hkind]; rfl
    obtain ⟨newOptions, ext, hcarry, hdecodes⟩ := hr.carryDelta h hdelta st.deltaBody
    rw [hcarry]
    refine ⟨_, rfl, grows_append hslot rfl rfl ?_ ?_
      ((derived_newDelta hdelta (by trivial)).1 (by rw [hkind]; rfl) (by simp))⟩
    · simp [PlanOutput.range, hkind, isCanonicalOnly, fromEntry, SegmentEntry.newDelta]
    · simp only [payload, hkind]
      exact (hdecodes _ _).1
  | canonicalDelta =>
    have hdelta : entry.kind.isDelta = true := by rw [hkind]; rfl
    obtain ⟨newOptions, ext, hcarry, hdecodes⟩ := hr.carryDelta h hdelta st.deltaBody
    rw [hcarry]
    refine ⟨_, rfl, grows_append hslot rfl rfl ?_ ?_ (derived_newDelta hdelta (by trivial)).2⟩
    · simp [PlanOutput.range, hkind, isCanonicalOnly, intoCanonical, SegmentEntry.intoCanonical]
    · simp only [payload, hkind]
      exact (hdecodes _ _).2

theorem Readable.emitCanonical (howns : entry.kind.ownsExtentHash = true) :
    ∃ st', ctx.emitCanonical input entryIdx st = .ok st' ∧
      ctx.Grows plaintext entry (.canonical input entryIdx) st st' ∧
      Appends entry (.canonical input entryIdx) st st' := by
  unfold MaterialiseCtx.emitCanonical
  rw [h.inputEntry_of_tierAllowed htier]
  dsimp only [bind, Except.bind]
  cases hkind : entry.kind with
  | data | inline | canonicalData | canonicalInline =>
    obtain ⟨bytes, hstored, hdecode⟩ := hr.verifiedStored h (by rw [hkind]; rfl)
    rw [hstored]
    exact ⟨_, rfl, grows_push hslot rfl (decodes_newData hdecode).2
      (derived_newData fun _ => ⟨rfl, by rw [hkind]; rfl⟩).2⟩
  | delta | canonicalDelta =>
    have hdelta : entry.kind.isDelta = true := by rw [hkind]; rfl
    obtain ⟨newOptions, ext, hcarry, hdecodes⟩ := hr.carryDelta h hdelta st.deltaBody
    rw [hcarry]
    exact ⟨_, rfl, grows_append hslot rfl rfl rfl (hdecodes _ _).2
      (derived_newDelta hdelta (by trivial)).2⟩
  | zero | dedupRef =>
    rw [hkind] at howns
    exact absurd howns (by decide)

end

theorem Readable.emitZeroSplit (h : ctx.HasEntry input entryIdx state entry)
    (htier : ctx.TierAllowed entry) (hkind : entry.kind = .zero) (startLba lbaLength : ℕ)
    (hslot : ctx.SlotOk st) :
    ∃ st', ctx.emitZeroSplit input entryIdx startLba lbaLength st = .ok st' ∧
      ctx.Grows plaintext entry (.zeroSplit input entryIdx startLba lbaLength) st st' ∧
      Appends entry (.zeroSplit input entryIdx startLba lbaLength) st st' := by
  unfold MaterialiseCtx.emitZeroSplit
  rw [h.inputEntry_of_tierAllowed htier]
  dsimp only [bind, Except.bind]
  rw [if_pos hkind]
  exact ⟨_, rfl, grows_push hslot rfl rfl (derived_newZero hkind (by simp))⟩

/-- Through the slot or past it, the composite is the computed one. -/
theorem resolveCompositeBody_eq (hslot : ctx.SlotOk st) :
    ctx.resolveCompositeBody input entryIdx st.slot =
      (ctx.computeCompositeBody input entryIdx).map fun body => ⟨(input, entryIdx), body⟩ := by
  unfold resolveCompositeBody
  cases hs : st.slot.filter fun s => decide (s.key = (input, entryIdx)) with
  | none => cases ctx.computeCompositeBody input entryIdx <;> rfl
  | some s =>
    obtain ⟨hsome, hkey⟩ := filter_eq_some_iff.mp hs
    have hbody := hslot s hsome
    rw [of_decide_eq_true hkey] at hbody
    rw [hbody]
    obtain ⟨key, body⟩ := s
    obtain rfl : key = (input, entryIdx) := of_decide_eq_true hkey
    rfl

theorem Readable.emitRun (hr : ctx.Readable plaintext)
    (h : ctx.HasEntry input entryIdx state entry) (hzero : entry.kind ≠ .zero)
    (hcanon : entry.kind.isCanonicalOnly = false) (htier : ctx.TierAllowed entry)
    (hres : ctx.Resolvable entry) {payloadBlockOffset startLba lbaLength : ℕ}
    (hpos : lbaLength ≠ 0) (hle : payloadBlockOffset + lbaLength ≤ entry.lbaLength)
    (hslot : ctx.SlotOk st) :
    ∃ st', ctx.emitRun input entryIdx payloadBlockOffset startLba lbaLength st = .ok st' ∧
      ctx.Grows plaintext entry (.run input entryIdx payloadBlockOffset startLba lbaLength) st st' ∧
      Appends entry (.run input entryIdx payloadBlockOffset startLba lbaLength) st st' := by
  have hcomposite := hr.computeCompositeBody h hzero hcanon hres htier
  have hfits : ¬ (plaintext entry.hash).length <
      payloadBlockOffset * BLOCK_BYTES + lbaLength * BLOCK_BYTES := by
    rw [hr.sized h hzero hcanon, ← Nat.add_mul]
    exact not_lt.mpr (Nat.mul_le_mul_right _ hle)
  obtain ⟨encoded, hencoded⟩ := hr.codecs.compressBody_ok
    (sliceBlocks (plaintext entry.hash) payloadBlockOffset lbaLength) ctx.allowJournal
  have hdecode : ∀ b, ctx.codecs.compressBody b ctx.allowJournal = .ok encoded →
      ctx.codecs.decode (encoded.getD (.none, b)).1 (encoded.getD (.none, b)).2 = .ok b := by
    intro b hb
    cases encoded with
    | none => exact hr.codecs.decode_none _
    | some pair => exact hr.codecs.decode_compressBody hb
  unfold MaterialiseCtx.emitRun
  rw [if_neg hpos, resolveCompositeBody_eq hslot, hcomposite]
  dsimp only [bind, Except.bind, Except.map]
  rw [if_neg hfits]
  rw [sliceBlocks] at hencoded
  rw [hencoded]
  refine ⟨_, rfl, grows_append (fun s hs => ?_) (append_nil _).symm rfl (newData_range _ _ _ _ _)
    (decodes_newData (hdecode _ hencoded)).1 ((derived_newData (by rintro ⟨⟩)).1 hcanon (by simp))⟩
  obtain rfl := some.inj hs
  exact hcomposite

/-- A record is placed for one entry only. -/
theorem Placed.unique {entry' : SegmentEntry} (h : ctx.Placed entry o)
    (h' : ctx.Placed entry' o) : entry = entry' := by
  have hone : ∀ {input entryIdx}, (∃ state, ctx.HasEntry input entryIdx state entry) →
      (∃ state, ctx.HasEntry input entryIdx state entry') → entry = entry' := by
    rintro input entryIdx ⟨state, h⟩ ⟨state', h'⟩
    obtain rfl : state = state' := mem_unique h.loaded h'.loaded
    exact mem_unique h.at_idx h'.at_idx
  cases o with
  | keep => exact hone h h'
  | zeroSplit | canonical | run => exact hone h.1 h'.1
  | drop => exact h.elim

/-- **A record that is accepted.** It appends the entry it asks for. -/
theorem Readable.applyOneOutput (hr : ctx.Readable plaintext) (hplaced : ctx.Placed entry o)
    (hacc : ctx.Accepted entry o) (hslot : ctx.SlotOk st) :
    ∃ st', ctx.applyOneOutput st o = .ok st' ∧ ctx.Grows plaintext entry o st st' ∧
      Appends entry o st st' := by
  cases o with
  | keep input entryIdx =>
    obtain ⟨state, h⟩ := hplaced
    exact hr.emitKeep h hacc hslot
  | zeroSplit input entryIdx startLba lbaLength =>
    obtain ⟨⟨state, h⟩, hkind⟩ := hplaced
    exact Readable.emitZeroSplit h hacc hkind startLba lbaLength hslot
  | canonical input entryIdx =>
    obtain ⟨⟨state, h⟩, howns⟩ := hplaced
    exact hr.emitCanonical h hacc hslot howns
  | run input entryIdx payloadBlockOffset startLba lbaLength =>
    obtain ⟨⟨state, h⟩, hzero, hcanon, hsource, hle⟩ := hplaced
    by_cases hpos : lbaLength = 0
    · exact ⟨st, if_pos hpos, ⟨hslot, ⟨[], (append_nil _).symm⟩,
        .inr ⟨rfl, hpos, fun hcarries => hcarries⟩⟩, .inr rfl⟩
    · obtain ⟨htier, href⟩ := hacc.resolve_left hpos
      exact hr.emitRun h hzero hcanon htier ⟨href, hsource⟩ hpos hle hslot
  | drop => exact hplaced.elim

theorem HasEntry.cancels_computeCompositeBody (h : ctx.HasEntry input entryIdx state entry)
    (hacc : ¬ (ctx.TierAllowed entry ∧
      (entry.kind = .dedupRef → (ctx.extentIndex.lookup entry.hash).isSome = true))) :
    ∃ e, ctx.computeCompositeBody input entryIdx = .error (.cancel e) := by
  unfold computeCompositeBody
  by_cases htier : ctx.TierAllowed entry
  · obtain ⟨hkind, hnone⟩ : entry.kind = .dedupRef ∧ ctx.extentIndex.lookup entry.hash = none := by
      simpa [htier] using hacc
    rw [h.inputEntry_of_tierAllowed htier]
    dsimp only [bind, Except.bind]
    rw [compositeByKind, hkind]
    rw [resolveBodyByHashDecompressed, hnone]
    exact ⟨_, rfl⟩
  · rw [h.inputEntry_of_not_tierAllowed htier]
    exact ⟨_, rfl⟩

/-- **A record that is not accepted cancels the plan.** -/
theorem cancels_applyOneOutput (hplaced : ctx.Placed entry o) (hacc : ¬ ctx.Accepted entry o)
    (hslot : ctx.SlotOk st) : ∃ e, ctx.applyOneOutput st o = .error (.cancel e) := by
  cases o with
  | keep input entryIdx =>
    obtain ⟨state, h⟩ := hplaced
    show ∃ e, ctx.emitKeep input entryIdx st = _
    unfold emitKeep
    rw [h.inputEntry_of_not_tierAllowed hacc]
    exact ⟨_, rfl⟩
  | zeroSplit input entryIdx startLba lbaLength =>
    obtain ⟨⟨state, h⟩, -⟩ := hplaced
    show ∃ e, ctx.emitZeroSplit input entryIdx startLba lbaLength st = _
    unfold emitZeroSplit
    rw [h.inputEntry_of_not_tierAllowed hacc]
    exact ⟨_, rfl⟩
  | canonical input entryIdx =>
    obtain ⟨⟨state, h⟩, -⟩ := hplaced
    show ∃ e, ctx.emitCanonical input entryIdx st = _
    unfold emitCanonical
    rw [h.inputEntry_of_not_tierAllowed hacc]
    exact ⟨_, rfl⟩
  | run input entryIdx payloadBlockOffset startLba lbaLength =>
    obtain ⟨⟨state, h⟩, -⟩ := hplaced
    obtain ⟨hpos, hacc⟩ := not_or.mp hacc
    obtain ⟨e, hcancel⟩ := h.cancels_computeCompositeBody hacc
    show ∃ e, ctx.emitRun input entryIdx payloadBlockOffset startLba lbaLength st = _
    unfold emitRun
    rw [if_neg hpos, resolveCompositeBody_eq hslot, hcancel]
    exact ⟨e, rfl⟩
  | drop => exact hplaced.elim

/-! ## A whole plan -/

/-- The record is placed for some entry, or consumes an input without one. -/
def Wellplaced (ctx : MaterialiseCtx) (o : PlanOutput) : Prop :=
  (∃ input, o = .drop input) ∨ ∃ entry, ctx.Placed entry o

/-- What the loop over accepted records has built: the entries they ask for, and no others. -/
structure Built (ctx : MaterialiseCtx) (plaintext : Hash → Bytes) (outputs : List PlanOutput)
    (deltaBody : Bytes) (new : List PendingEntry) : Prop where
  sound : ∀ p ∈ new, ∃ o ∈ outputs, ∃ entry, ctx.Placed entry o ∧
    ctx.Renders plaintext deltaBody entry o p
  complete : ∀ o ∈ outputs, ∀ entry, ctx.Placed entry o → 0 < (o.range entry).2 ∨ o.CarriesWhole →
    ∃ p ∈ new, ctx.Renders plaintext deltaBody entry o p

variable {outputs : List PlanOutput}

theorem Renders.append (h : ctx.Renders plaintext deltaBody entry o p) (ext : Bytes) :
    ctx.Renders plaintext (deltaBody ++ ext) entry o p :=
  ⟨h.range, h.decodes.append ext, h.carries⟩

theorem Readable.cancels_applyOutputs (hr : ctx.Readable plaintext)
    (hplaced : ∀ o ∈ outputs, ctx.Wellplaced o)
    (hrefused : ∃ o ∈ outputs, ∃ entry, ctx.Placed entry o ∧ ¬ ctx.Accepted entry o)
    (hslot : ctx.SlotOk st) : ∃ e, ctx.applyOutputs st outputs = .error (.cancel e) := by
  induction outputs generalizing st with
  | nil => simp at hrefused
  | cons o outputs ih =>
    have hplaced' : ∀ o ∈ outputs, ctx.Wellplaced o := fun o ho =>
      hplaced o (mem_cons_of_mem _ ho)
    obtain ⟨o', ho', entry', he', hno⟩ := hrefused
    rcases hplaced o mem_cons_self with ⟨input, rfl⟩ | ⟨entry, hentry⟩
    · rcases mem_cons.mp ho' with rfl | ho'
      · exact he'.elim
      · exact ih hplaced' ⟨o', ho', entry', he', hno⟩ hslot
    · rw [applyOutputs, foldlM_cons]
      by_cases hacc : ctx.Accepted entry o
      · obtain ⟨mid, hmid, hgrows, -⟩ := hr.applyOneOutput hentry hacc hslot
        rw [hmid]
        rcases mem_cons.mp ho' with rfl | ho'
        · obtain rfl := hentry.unique he'
          exact absurd hacc hno
        · exact ih hplaced' ⟨o', ho', entry', he', hno⟩ hgrows.slotOk
      · obtain ⟨e, hcancel⟩ := cancels_applyOneOutput hentry hacc hslot
        rw [hcancel]
        exact ⟨e, rfl⟩

/-- The output entry is what the record asks for, in content and in kind. -/
structure Rendered (ctx : MaterialiseCtx) (plaintext : Hash → Bytes) (deltaBody : Bytes)
    (entry : SegmentEntry) (o : PlanOutput) (p : PendingEntry) : Prop where
  placed : ctx.Placed entry o
  renders : ctx.Renders plaintext deltaBody entry o p
  derived : Derived entry o p

theorem Rendered.append {deltaBody : Bytes} (h : ctx.Rendered plaintext deltaBody entry o p)
    (ext : Bytes) : ctx.Rendered plaintext (deltaBody ++ ext) entry o p :=
  ⟨h.placed, h.renders.append ext, h.derived⟩

/-- One record of a plan that went through. -/
theorem Readable.rendered_one (hr : ctx.Readable plaintext) (hplaced : ctx.Placed entry o)
    (hok : ctx.applyOneOutput st o = .ok st') (hslot : ctx.SlotOk st) :
    ctx.SlotOk st' ∧ (∃ ext, st'.deltaBody = st.deltaBody ++ ext) ∧
      ((∃ p, st'.entries = st.entries ++ [p] ∧ ctx.Rendered plaintext st'.deltaBody entry o p) ∨
        st'.entries = st.entries ∧ (o.range entry).2 = 0 ∧ ¬ o.CarriesWhole) := by
  have hacc : ctx.Accepted entry o := by
    by_contra hno
    obtain ⟨e, herror⟩ := cancels_applyOneOutput hplaced hno hslot
    rw [hok] at herror
    cases herror
  obtain ⟨st'', hok', hgrows, happends⟩ := hr.applyOneOutput hplaced hacc hslot
  obtain rfl := Except.ok.inj (hok.symm.trans hok')
  refine ⟨hgrows.slotOk, hgrows.deltaBody, hgrows.entries.imp_left ?_⟩
  rintro ⟨p, hp, hrenders⟩
  refine ⟨p, hp, hplaced, hrenders, ?_⟩
  rcases happends with ⟨q, hq, hderived⟩ | hsame
  · have hpq : [p] = [q] := append_cancel_left (hp.symm.trans hq)
    rw [List.cons.inj hpq |>.1]
    exact hderived
  · rw [hsame] at hp
    exact absurd (congrArg List.length hp) (by simp)

section

variable (hr : ctx.Readable plaintext) {outputs : List PlanOutput}
  (hplaced : ∀ o ∈ outputs, ctx.Wellplaced o) (hslot : ctx.SlotOk st)
include hr hplaced hslot

/-- **A plan that went through.** Its entries are those its records ask for. -/
theorem Readable.rendered (hok : ctx.applyOutputs st outputs = .ok st') :
    ∃ new, st'.entries = st.entries ++ new ∧ (∃ ext, st'.deltaBody = st.deltaBody ++ ext) ∧
      (∀ p ∈ new, ∃ o ∈ outputs, ∃ entry, ctx.Rendered plaintext st'.deltaBody entry o p) ∧
      ∀ o ∈ outputs, ∀ entry, ctx.Placed entry o → 0 < (o.range entry).2 ∨ o.CarriesWhole →
        ∃ p ∈ new, ctx.Rendered plaintext st'.deltaBody entry o p := by
  induction outputs generalizing st with
  | nil =>
    obtain rfl := Except.ok.inj hok
    exact ⟨[], by simp, ⟨[], by simp⟩, by simp, by simp⟩
  | cons o outputs ih =>
    have hplaced' : ∀ o ∈ outputs, ctx.Wellplaced o := fun o ho =>
      hplaced o (mem_cons_of_mem _ ho)
    obtain ⟨mid, hmid, hok⟩ := Run.exists_of_bind_ok hok
    rcases hplaced o mem_cons_self with ⟨input, rfl⟩ | ⟨entry, hentry⟩
    · obtain ⟨new, hnew, hbody, hsound, hcomplete⟩ := ih hplaced' hslot hok
      refine ⟨new, hnew, hbody, fun p hp => ?_, fun o ho entry hentry hwhole => ?_⟩
      · obtain ⟨o, ho, hrest⟩ := hsound p hp
        exact ⟨o, mem_cons_of_mem _ ho, hrest⟩
      · rcases mem_cons.mp ho with rfl | ho
        · exact hentry.elim
        · exact hcomplete o ho entry hentry hwhole
    · obtain ⟨hslot', ⟨ext', hext'⟩, happ⟩ := hr.rendered_one hentry hmid hslot
      obtain ⟨new, hnew, ⟨ext, hbody⟩, hsound, hcomplete⟩ := ih hplaced' hslot' hok
      have hbody' : ∃ ext, st'.deltaBody = st.deltaBody ++ ext :=
        ⟨ext' ++ ext, by rw [hbody, hext', append_assoc]⟩
      rcases happ with ⟨q, hq, hrendered⟩ | ⟨hsame, hempty, hwhole⟩
      · have hq' : ctx.Rendered plaintext st'.deltaBody entry o q := by
          rw [hbody]
          exact hrendered.append ext
        rw [hq, append_assoc] at hnew
        refine ⟨_, hnew, hbody', fun p hp => ?_, fun o' ho' entry' he' hask => ?_⟩
        · rcases mem_cons.mp hp with rfl | hp
          · exact ⟨o, mem_cons_self, entry, hq'⟩
          · obtain ⟨o', ho', hrest⟩ := hsound p hp
            exact ⟨o', mem_cons_of_mem _ ho', hrest⟩
        · rcases mem_cons.mp ho' with rfl | ho'
          · obtain rfl := hentry.unique he'
            exact ⟨q, mem_cons_self, hq'⟩
          · obtain ⟨p, hp, hrest⟩ := hcomplete o' ho' entry' he' hask
            exact ⟨p, mem_cons_of_mem _ hp, hrest⟩
      · rw [hsame] at hnew
        refine ⟨new, hnew, hbody', fun p hp => ?_, fun o' ho' entry' he' hask => ?_⟩
        · obtain ⟨o', ho', hrest⟩ := hsound p hp
          exact ⟨o', mem_cons_of_mem _ ho', hrest⟩
        · rcases mem_cons.mp ho' with rfl | ho'
          · obtain rfl := hentry.unique he'
            exact absurd hask (by simp [hempty, hwhole])
          · exact hcomplete o' ho' entry' he' hask

theorem Readable.exists_applyOutputs
    (hacc : ∀ o ∈ outputs, ∀ entry, ctx.Placed entry o → ctx.Accepted entry o) :
    ∃ st', ctx.applyOutputs st outputs = .ok st' := by
  refine (Run.exists_foldlM_ok (g := fun _ => []) (P := fun (_ : List ℕ) st => ctx.SlotOk st)
    (fun o ho _ st hslot => ?_) [] hslot).imp fun _ h => h.1
  rcases hplaced o ho with ⟨input, rfl⟩ | ⟨entry, hentry⟩
  · -- a consumed input leaves the state as it is
    exact ⟨st, rfl, hslot⟩
  · obtain ⟨mid, hmid, hgrows, -⟩ := hr.applyOneOutput hentry (hacc o ho entry hentry) hslot
    exact ⟨mid, hmid, hgrows.slotOk⟩

/-- **A plan whose records are accepted** goes through. -/
theorem Readable.applyOutputs
    (hacc : ∀ o ∈ outputs, ∀ entry, ctx.Placed entry o → ctx.Accepted entry o) :
    ∃ st' new ext, ctx.applyOutputs st outputs = .ok st' ∧ st'.entries = st.entries ++ new ∧
      st'.deltaBody = st.deltaBody ++ ext ∧ ctx.Built plaintext outputs st'.deltaBody new := by
  obtain ⟨st', hok⟩ := hr.exists_applyOutputs hplaced hslot hacc
  obtain ⟨new, hnew, ⟨ext, hbody⟩, hsound, hcomplete⟩ := hr.rendered hplaced hslot hok
  refine ⟨st', new, ext, hok, hnew, hbody, ⟨fun p hp => ?_, fun o ho entry he hask => ?_⟩⟩
  · obtain ⟨o, ho, entry, h⟩ := hsound p hp
    exact ⟨o, ho, entry, h.placed, h.renders⟩
  · obtain ⟨p, hp, h⟩ := hcomplete o ho entry he hask
    exact ⟨p, hp, h.renders⟩

end

end MaterialiseCtx

end Elide
