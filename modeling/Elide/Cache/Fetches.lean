import Elide.Cache.Content
import Elide.Cache.Promote

/-!
# Fetches, warms and evictions of one cached segment

A demand fetch GETs a range of the stored object and then opens `.body`; a whole-segment warm opens it
first. Both create it if it is not there, write what they got into it, and then, under the lock of the
segment, read `.present`, set the bits of what they wrote and write it back. An eviction belongs to
another process and takes no lock: it unlinks `.present`, then `.body`. A descriptor opened before the
unlink keeps writing to the old file.

What a reader returns does not depend on any of that. It is checked against the content hash of the
entry, so a hole of a recreated file is an error (`ReadCodecs.readBody_eq`). The bits of `.present`
have no such check. They are right in a state exactly if two kinds of steps kept them right: a
`.body` is created only while no bit of a Data entry is set, and `.present` is written back only with
bits of entries whose bytes are in the file that is then at `.body`.

Evictions, fetches and warms may stop at any point, so "no step is in progress" is a state that every
state leads to, by stopping what runs in it (`SegmentCache.halted`). The bits are judged there.

## Main results

* `QuietCache.marks_right_iff`: along a run, every read that returns is right, and the bits are right when
  nothing is in progress, exactly if every step is of these kinds.
* `QuietCache.reads_right`: the reads need no condition.
* `UnlinkedHandle.marks_bytes_of_unlinked_file`: an eviction between the open and the write of a
  fetch.
-/

namespace Elide

open List Function FileBytes

/-! ### The segment -/

/-- The plaintext of stored bytes. -/
def ReadCodecs.plaintext (c : ReadCodecs) : Codec → Bytes → Except IoError Bytes
  | .none, stored => .ok stored
  | codec, stored => c.decode codec stored

/-- A promoted segment as the store has it. Its Data entries decode to contents that their hashes
determine. -/
structure StoredSegment where
  src : SegmentSource
  codecs : ReadCodecs
  content : ℕ → Bytes
  decodes : ∀ i entry, src.entries[i]? = some entry → entry.kind.isData = true →
    codecs.plaintext entry.codec (src.rest.slice entry.storedOffset entry.storedLength) =
      .ok (content i)
  determines : ∀ i entry, src.entries[i]? = some entry → entry.kind.isData = true →
    codecs.Determines entry.hash (content i)
  fits : ∀ entry ∈ src.entries, entry.kind.isData = true →
    entry.storedOffset + entry.storedLength ≤ src.rest.length

/-- Consecutive entries and the range of the body section they take. -/
structure FetchBatch where
  start : ℕ
  last : ℕ
  bodyStart : ℕ
  bodyEnd : ℕ
  deriving DecidableEq

namespace FetchBatch

/-- The batch of one entry. -/
def ofEntry (i : ℕ) (entry : SegmentEntry) : FetchBatch :=
  ⟨i, i, entry.storedOffset, entry.storedOffset + entry.storedLength⟩

/-- The marked entries. -/
def indices (b : FetchBatch) : List ℕ := List.range' b.start (b.last + 1 - b.start)

/-- Whether two batches have an entry in common. -/
def overlaps (b b' : FetchBatch) : Bool := b.start ≤ b'.last && b'.start ≤ b.last

/-- Scan forward over the entries after the batch. -/
def extend (isPresent : ℕ → Bool) (maxBatchBytes : ℕ) : List SegmentEntry → FetchBatch → FetchBatch
  | [], b => b
  | entry :: entries, b =>
    if !entry.kind.isData then b
    else if entry.storedOffset ≠ b.bodyEnd then b
    else if isPresent (b.last + 1) then b
    else if maxBatchBytes < b.bodyEnd + entry.storedLength - b.bodyStart then b
    else extend isPresent maxBatchBytes entries
      { b with last := b.last + 1, bodyEnd := entry.storedOffset + entry.storedLength }

end FetchBatch

/-- One populated entry of a warm: the batches closed so far and the current one. -/
def planWarmStep (entries : List SegmentEntry) (isPresent : ℕ → Bool) (maxBatchBytes : ℕ) :
    List FetchBatch × Option FetchBatch → ℕ → List FetchBatch × Option FetchBatch
  | (batches, current), i =>
    match entries[i]? with
    | none => (batches, current)
    | some entry =>
      if !entry.kind.isData || entry.storedLength = 0 then (batches, current)
      else if isPresent i then (batches ++ current.toList, none)
      else
        match current with
        | none => (batches, some (.ofEntry i entry))
        | some b =>
          if b.bodyEnd = entry.storedOffset then
            if maxBatchBytes < entry.storedOffset + entry.storedLength - b.bodyStart then
              (batches ++ [b], some (.ofEntry i entry))
            else
              (batches,
                some { b with last := i, bodyEnd := entry.storedOffset + entry.storedLength })
          else (batches ++ [b], some (.ofEntry i entry))

/-- The batches a warm fetches: absent entries, joined up to the limit. -/
def planWarmBatches (entries : List SegmentEntry) (populated : List ℕ) (isPresent : ℕ → Bool)
    (maxBatchBytes : ℕ) : List FetchBatch :=
  let plan := populated.foldl (planWarmStep entries isPresent maxBatchBytes) ([], none)
  plan.1 ++ plan.2.toList

namespace StoredSegment

variable (seg : StoredSegment)

/-- Whether the bytes fetched for an entry hash to its name. -/
def verifyBodyHash (entry : SegmentEntry) (body : Bytes) : Bool :=
  if !entry.kind.hasBodyBytes then true
  else
    match seg.codecs.plaintext entry.codec body with
    | .ok plain => seg.codecs.blake3 plain = entry.hash
    | .error _ => false

/-- GET the range of a batch and verify its entries, which must lie in it. A warm passes over entries
without a body. -/
def getBatch (warm : Bool) (b : FetchBatch) : Option Bytes :=
  let bytes := seg.src.rest.slice b.bodyStart (b.bodyEnd - b.bodyStart)
  if bytes.length ≠ b.bodyEnd - b.bodyStart then none
  else if b.indices.all fun i =>
      match seg.src.entries[i]? with
      | none => true
      | some entry =>
        (warm && (!entry.kind.isData || entry.storedLength = 0)) ||
          (b.bodyStart ≤ entry.storedOffset &&
            entry.storedOffset + entry.storedLength ≤ b.bodyEnd &&
            seg.verifyBodyHash entry
              (slice bytes (entry.storedOffset - b.bodyStart) entry.storedLength))
  then some bytes
  else none

/-- A warm opens `.body` before its GETs, a fetch when it has its bytes. -/
def opensBody (warm : Bool) (todo : List FetchBatch) : Bool :=
  warm || todo.all fun b => (seg.getBatch false b).isSome

/-- `.present` with the bits of the batches. -/
def mark (bits : Bitset) (batches : List FetchBatch) : Bitset :=
  (bits.resize seg.src.entries.length).setAll (batches.flatMap FetchBatch.indices)

end StoredSegment

/-! ### The machine -/

/-- How far a fetch or a warm is. -/
inductive FillStage where
  | planned (todo : List FetchBatch)
  /-- `.body` is open; the descriptor is of this file, wherever it is. -/
  | writing (file : ℕ) (todo done : List FetchBatch)
  /-- The lock is taken. -/
  | locked (marks : List FetchBatch)
  /-- `.present` is read. -/
  | merging (marks : List FetchBatch) (bits : Bitset)
  /-- It is written back. -/
  | replacing (bits : Bitset)
  /-- A fetch that has found a bit without a `.body`. -/
  | stale
  | staleLocked
  | cleared

/-- A fetch or a warm. -/
structure Filler where
  warm : Bool
  stage : FillStage

/-- A wanted range of a Data entry. -/
structure DataRead (seg : StoredSegment) where
  index : ℕ
  entry : SegmentEntry
  lo : ℕ
  hi : ℕ
  found : seg.src.entries[index]? = some entry
  data : entry.kind.isData = true
  inside : hi ≤ (seg.content index).length

/-- How far a reader is. -/
inductive CacheReader (seg : StoredSegment) where
  | found (read : DataRead seg)
  /-- The bit was set, or a fetch has returned. -/
  | allowed (read : DataRead seg)
  | opened (read : DataRead seg) (file : ℕ)

/-- The cache of one segment, and what runs on it. Files are named by number: one stays what it is
after its path is unlinked. -/
structure SegmentCache (seg : StoredSegment) where
  files : ℕ → FileBytes
  nextFile : ℕ
  /-- The file at `.body`. -/
  body : Option ℕ
  present : Option Bitset
  /-- The bits in memory. -/
  bits : Bitset
  /-- The descriptor that readers share. -/
  descriptor : Option ℕ
  lock : Option ℕ
  /-- The leases of the fetches in flight. -/
  leases : List (ℕ × FetchBatch)
  fillers : ℕ → Option Filler
  /-- Evictions that have unlinked `.present`. -/
  evicting : ℕ → Bool
  readers : ℕ → Option (CacheReader seg)
  /-- The reads that have ended. -/
  reads : List (DataRead seg × Except IoError Bytes)

/-- What happens to the cache files of one segment. -/
inductive CacheAct (seg : StoredSegment) where
  | fetch (i start maxBatchBytes : ℕ)
  | warm (i : ℕ) (populated : List ℕ) (maxBatchBytes : ℕ)
  /-- The next step of a fetch or warm. While it writes, `n` is the batch it takes. -/
  | advance (i n : ℕ)
  | failFill (i : ℕ)
  | unlinkPresent (j : ℕ)
  | unlinkBody (j : ℕ)
  | failEvict (j : ℕ)
  | find (r : ℕ) (read : DataRead seg)
  | test (r : ℕ)
  /-- A fetch on behalf of the reader has returned. -/
  | fetched (r : ℕ) (read : DataRead seg)
  | openBody (r : ℕ)
  /-- The shared descriptor, without a look at the path. -/
  | hit (r : ℕ) (read : DataRead seg)
  | readAt (r : ℕ)
  | failRead (r : ℕ)
  /-- The shared descriptor is retired. -/
  | retire

/-- Something stops where it is. -/
def CacheAct.Stops {seg : StoredSegment} : CacheAct seg → Prop
  | .failFill _ | .failEvict _ | .failRead _ => True
  | _ => False

namespace SegmentCache

variable {seg : StoredSegment} (s : SegmentCache seg)

/-- Whether the bit of an entry is set on disk. -/
def marked (i : ℕ) : Bool := s.present.any fun bits => bits.get i

/-- Replace the filler `i`. -/
def setFiller (i : ℕ) (filler : Option Filler) : SegmentCache seg :=
  { s with fillers := update s.fillers i filler }

/-- Replace the reader `r`. -/
def setReader (r : ℕ) (reader : Option (CacheReader seg)) : SegmentCache seg :=
  { s with readers := update s.readers r reader }

/-- End a fetch or warm: its lease and the lock, if it has them, are free. -/
def endFiller (i : ℕ) : SegmentCache seg :=
  { s.setFiller i none with
    leases := s.leases.filter fun lease => lease.1 ≠ i
    lock := if s.lock = some i then none else s.lock }

/-- Replace the bits in memory, at their size. -/
def replaceFromBytes (bytes : Bitset) : SegmentCache seg :=
  { s with bits := (List.range s.bits.length).map fun i => bytes.getD i 0 }

/-- A fetch looks at `.present`: the entry may be there already, or its bit is a remnant; otherwise
it claims a lease for a batch. It waits while one in flight overlaps. -/
def fetch (i start maxBatchBytes : ℕ) : SegmentCache seg :=
  match s.fillers i, seg.src.entries[start]? with
  | none, some entry =>
    if !entry.kind.isData || entry.storedLength = 0 then s
    else if s.marked start then
      if s.body.isSome then s else s.setFiller i (some ⟨false, .stale⟩)
    else
      let b := FetchBatch.extend s.marked maxBatchBytes (seg.src.entries.drop (start + 1))
        (.ofEntry start entry)
      if s.leases.any fun lease => lease.2.overlaps b then s
      else { s.setFiller i (some ⟨false, .planned [b]⟩) with leases := (i, b) :: s.leases }
  | _, _ => s

/-- A warm starts, unless there is nothing to fetch. -/
def warm (i : ℕ) (populated : List ℕ) (maxBatchBytes : ℕ) : SegmentCache seg :=
  match s.fillers i with
  | none =>
    let batches := planWarmBatches seg.src.entries populated s.marked maxBatchBytes
    if batches = [] then s else s.setFiller i (some ⟨true, .planned batches⟩)
  | some _ => s

/-- Open `.body`, and create it if it is not there. -/
def openOrCreate : SegmentCache seg × ℕ :=
  match s.body with
  | some file => (s, file)
  | none =>
    ({ s with
        files := update s.files s.nextFile []
        body := some s.nextFile
        nextFile := s.nextFile + 1 }, s.nextFile)

/-- Write at an offset through a descriptor. -/
def pwrite (file off : ℕ) (bytes : Bytes) : SegmentCache seg :=
  { s with files := update s.files file ((s.files file).writeAt off bytes) }

/-- The next step of a fetch or warm. -/
def advance (i n : ℕ) : SegmentCache seg :=
  match s.fillers i with
  | none => s
  | some ⟨warm, stage⟩ =>
    match stage with
    | .planned todo =>
      if seg.opensBody warm todo then
        let (s', file) := s.openOrCreate
        s'.setFiller i (some ⟨warm, .writing file todo []⟩)
      else s.endFiller i
    | .writing _ [] done =>
      if s.lock.isNone then { s.setFiller i (some ⟨warm, .locked done⟩) with lock := some i } else s
    | .writing file todo done =>
      match todo[n]? with
      | none => s
      | some b =>
        match seg.getBatch warm b with
        | none => s.endFiller i
        | some bytes =>
          (s.pwrite file b.bodyStart bytes).setFiller i
            (some ⟨warm, .writing file (todo.eraseIdx n) (done ++ [b])⟩)
    | .locked marks => s.setFiller i (some ⟨warm, .merging marks (s.present.getD [])⟩)
    | .merging marks bits =>
      { s.setFiller i (some ⟨warm, .replacing (seg.mark bits marks)⟩) with
        present := some (seg.mark bits marks) }
    | .replacing bits => (s.replaceFromBytes bits).endFiller i
    | .stale =>
      if s.lock.isNone then { s.setFiller i (some ⟨warm, .staleLocked⟩) with lock := some i } else s
    | .staleLocked =>
      if s.body.isNone then { s.setFiller i (some ⟨warm, .cleared⟩) with present := none }
      else s.endFiller i
    | .cleared => (s.replaceFromBytes []).endFiller i

/-- What a read of the open file returns. -/
def readFrom (read : DataRead seg) (file : ℕ) : Except IoError Bytes :=
  seg.codecs.readBody read.entry.codec (s.files file) read.entry.storedOffset
    read.entry.storedLength read.entry.hash read.lo read.hi

/-- A read returns. -/
def endRead (r : ℕ) (read : DataRead seg) (result : Except IoError Bytes) : SegmentCache seg :=
  { s.setReader r none with reads := s.reads ++ [(read, result)] }

/-- One action. -/
def step : CacheAct seg → SegmentCache seg
  | .fetch i start maxBatchBytes => s.fetch i start maxBatchBytes
  | .warm i populated maxBatchBytes => s.warm i populated maxBatchBytes
  | .advance i n => s.advance i n
  | .failFill i => s.endFiller i
  | .unlinkPresent j => { s with present := none, evicting := update s.evicting j true }
  | .unlinkBody j =>
    if s.evicting j then { s with body := none, evicting := update s.evicting j false }
    else s
  | .failEvict j => { s with evicting := update s.evicting j false }
  | .find r read => if s.body.isSome then s.setReader r (some (.found read)) else s
  | .test r =>
    match s.readers r with
    | some (.found read) =>
      s.setReader r (if s.bits.get read.index then some (.allowed read) else none)
    | _ => s
  | .fetched r read => s.setReader r (some (.allowed read))
  | .openBody r =>
    match s.readers r, s.body with
    | some (.allowed read), some file =>
      { s.setReader r (some (.opened read file)) with descriptor := some file }
    | some (.allowed read), none => s.endRead r read (.error "No such file or directory")
    | _, _ => s
  | .hit r read =>
    match s.descriptor with
    | some file =>
      if s.bits.get read.index then s.setReader r (some (.opened read file)) else s
    | none => s
  | .readAt r =>
    match s.readers r with
    | some (.opened read file) => s.endRead r read (s.readFrom read file)
    | _ => s
  | .failRead r => s.setReader r none
  | .retire => { s with descriptor := none }

/-! ### What is said about it -/

/-- Nothing runs under this number. -/
def Idle (i : ℕ) : Prop :=
  s.fillers i = none ∧ s.evicting i = false ∧ s.readers i = none

/-- No step is in progress. -/
def Quiet : Prop := ∀ i, s.Idle i

/-- Every read that has returned is of the content of its entry. -/
def ReadsRight : Prop :=
  ∀ read out, (read, Except.ok out) ∈ s.reads →
    out = slice (seg.content read.index) read.lo (read.hi - read.lo)

/-- The entries of these bits are in the file at `.body`, if there is one. -/
def Held (bits : Bitset) : Prop :=
  ∀ i entry, seg.src.entries[i]? = some entry → entry.kind.isData = true → bits.get i = true →
    ∀ file, s.body = some file → seg.src.Holds (s.files file) entry

/-- Every bit set in `.present`, with `.body` existing, has its bytes there. -/
def MarksRight : Prop := s.Held (s.present.getD [])

/-- The bits are right however what is in progress stops. -/
def RightAtRest : Prop :=
  ∀ stops : List (CacheAct seg), (∀ a ∈ stops, a.Stops) → (stops.foldl step s).Quiet →
    (stops.foldl step s).MarksRight

/-- Where a step creates `.body`, no bit of a stored entry is set; where it writes `.present`, the
entries of all the bits it writes are in the file at `.body`. -/
def Careful : CacheAct seg → Prop
  | .advance i _ =>
    match s.fillers i with
    | some ⟨warm, .planned todo⟩ =>
      seg.opensBody warm todo = true → s.body = none → ∀ i entry, seg.src.entries[i]? = some entry →
        entry.kind.isData = true → s.marked i = true → entry.storedLength = 0
    | some ⟨_, .merging marks bits⟩ => s.Held (seg.mark bits marks)
    | _ => True
  | _ => True

/-! ### What a step can do -/

/-- What a step does to the files. -/
inductive Effect (s : SegmentCache seg) (a : CacheAct seg) (s' : SegmentCache seg) : Prop
  | keep (hc : s.Careful a) (files : s'.files = s.files) (body : s'.body = s.body)
    (present : s'.present = s.present)
  | unlink (hc : s.Careful a) (gone : s'.present = none ∨ s'.body = none)
  | write (hc : s.Careful a) {warm : Bool} {b : FetchBatch} {bytes : Bytes} {file : ℕ}
    (get : seg.getBatch warm b = some bytes)
    (files : s'.files = (s.pwrite file b.bodyStart bytes).files) (body : s'.body = s.body)
    (present : s'.present = s.present)
  | create {i n : ℕ} {warm : Bool} {todo : List FetchBatch} (act : a = .advance i n)
    (filler : s.fillers i = some ⟨warm, .planned todo⟩) (opens : seg.opensBody warm todo = true)
    (absent : s.body = none)
    (files : s'.files = update s.files s.nextFile []) (body : s'.body = some s.nextFile)
    (present : s'.present = s.present)
  | mark {i n : ℕ} {warm : Bool} {marks : List FetchBatch} {bits : Bitset}
    (act : a = .advance i n) (filler : s.fillers i = some ⟨warm, .merging marks bits⟩)
    (files : s'.files = s.files) (body : s'.body = s.body)
    (present : s'.present = some (seg.mark bits marks))

/-- What a step of a fetch or warm leaves as it is. -/
structure FillFrame (s : SegmentCache seg) (i : ℕ) (s' : SegmentCache seg) : Prop where
  fillers : ∀ k, k ≠ i → s'.fillers k = s.fillers k
  evicting : s'.evicting = s.evicting
  readers : s'.readers = s.readers
  reads : s'.reads = s.reads

variable {s : SegmentCache seg} {a : CacheAct seg}

theorem effect_refl (hc : s.Careful a) (i : ℕ) :
    Effect s a s ∧ FillFrame s i s :=
  ⟨.keep hc rfl rfl rfl, ⟨fun _ _ => rfl, rfl, rfl, rfl⟩⟩

variable {s' : SegmentCache seg}

theorem FillFrame.of_update {i : ℕ} {filler : Option Filler}
    (fillers : s'.fillers = update s.fillers i filler)
    (evicting : s'.evicting = s.evicting) (readers : s'.readers = s.readers)
    (reads : s'.reads = s.reads) : FillFrame s i s' := by
  refine ⟨fun k hk => ?_, evicting, readers, reads⟩
  rw [fillers, update_of_ne hk]

variable (s)

theorem effect_fetch (i start maxBatchBytes : ℕ) :
    Effect s (.fetch i start maxBatchBytes) (s.fetch i start maxBatchBytes) ∧
      FillFrame s i (s.fetch i start maxBatchBytes) := by
  have hc : s.Careful (.fetch i start maxBatchBytes) := trivial
  rw [fetch]
  split
  · dsimp only
    split_ifs
    · exact effect_refl hc i
    · exact effect_refl hc i
    · exact ⟨.keep hc rfl rfl rfl, .of_update rfl rfl rfl rfl⟩
    · exact effect_refl hc i
    · exact ⟨.keep hc rfl rfl rfl, .of_update rfl rfl rfl rfl⟩
  · exact effect_refl hc i

theorem effect_warm (i : ℕ) (populated : List ℕ) (maxBatchBytes : ℕ) :
    Effect s (.warm i populated maxBatchBytes) (s.warm i populated maxBatchBytes) ∧
      FillFrame s i (s.warm i populated maxBatchBytes) := by
  have hc : s.Careful (.warm i populated maxBatchBytes) := trivial
  rw [warm]
  split
  · dsimp only
    split_ifs
    · exact effect_refl hc i
    · exact ⟨.keep hc rfl rfl rfl, .of_update rfl rfl rfl rfl⟩
  · exact effect_refl hc i

/-- Each stage of a fetch or warm. -/
theorem effect_advance (i n : ℕ) :
    Effect s (.advance i n) (s.advance i n) ∧ FillFrame s i (s.advance i n) := by
  have careful : (∀ warm todo, s.fillers i ≠ some ⟨warm, .planned todo⟩) →
      (∀ warm marks bits, s.fillers i ≠ some ⟨warm, .merging marks bits⟩) →
      s.Careful (.advance i n) := by
    intro hplanned hmerging
    simp only [Careful]
  rw [advance]
  cases hf : s.fillers i with
  | none => exact effect_refl (careful (by simp [hf]) (by simp [hf])) i
  | some filler =>
    obtain ⟨warm, stage⟩ := filler
    cases stage with
    | planned todo =>
      dsimp only
      split_ifs with hopens
      · simp only [openOrCreate]
        cases hbody : s.body with
        | some file =>
          refine ⟨.keep ?_ rfl rfl rfl, .of_update rfl rfl rfl rfl⟩
          simp only [Careful, hf, hbody]
          exact fun _ => nofun
        | none => exact ⟨.create rfl hf hopens hbody rfl rfl rfl, .of_update rfl rfl rfl rfl⟩
      · refine ⟨.keep ?_ rfl rfl rfl, .of_update rfl rfl rfl rfl⟩
        simp only [Careful, hf]
        exact fun h => absurd h hopens
    | writing file todo done =>
      have hc := careful (by simp [hf]) (by simp [hf])
      cases todo with
      | nil =>
        dsimp only
        split_ifs
        · exact ⟨.keep hc rfl rfl rfl, .of_update rfl rfl rfl rfl⟩
        · exact effect_refl hc i
      | cons b todo =>
        dsimp only
        split
        · exact effect_refl hc i
        · split
          · exact ⟨.keep hc rfl rfl rfl, .of_update rfl rfl rfl rfl⟩
          · exact ⟨.write hc ‹_› rfl rfl rfl, .of_update rfl rfl rfl rfl⟩
    | merging marks bits => exact ⟨.mark rfl hf rfl rfl rfl, .of_update rfl rfl rfl rfl⟩
    | stale =>
      have hc := careful (by simp [hf]) (by simp [hf])
      dsimp only
      split_ifs
      · exact ⟨.keep hc rfl rfl rfl, .of_update rfl rfl rfl rfl⟩
      · exact effect_refl hc i
    | staleLocked =>
      have hc := careful (by simp [hf]) (by simp [hf])
      dsimp only
      split_ifs
      · exact ⟨.unlink hc (.inl rfl), .of_update rfl rfl rfl rfl⟩
      · exact ⟨.keep hc rfl rfl rfl, .of_update rfl rfl rfl rfl⟩
    | locked | replacing | cleared =>
      have hc := careful (by simp [hf]) (by simp [hf])
      exact ⟨.keep hc rfl rfl rfl, .of_update rfl rfl rfl rfl⟩

theorem effect_step (a : CacheAct seg) : Effect s a (s.step a) := by
  cases a with
  | fetch i start maxBatchBytes => exact (effect_fetch s i start maxBatchBytes).1
  | warm i populated maxBatchBytes => exact (effect_warm s i populated maxBatchBytes).1
  | advance i n => exact (effect_advance s i n).1
  | failFill | failEvict | fetched | failRead | retire => exact .keep trivial rfl rfl rfl
  | unlinkPresent j => exact .unlink trivial (.inl rfl)
  | unlinkBody j =>
    rw [step]
    split_ifs
    · exact .unlink trivial (.inr rfl)
    · exact .keep trivial rfl rfl rfl
  | find r read =>
    rw [step]
    split_ifs
    all_goals exact .keep trivial rfl rfl rfl
  | test | openBody | readAt =>
    rw [step]
    split
    all_goals exact .keep trivial rfl rfl rfl
  | hit r read =>
    rw [step]
    split
    · split_ifs
      all_goals exact .keep trivial rfl rfl rfl
    · exact .keep trivial rfl rfl rfl

/-- What a step adds to the reads: nothing, or one that failed or read an open file. -/
theorem reads_step (a : CacheAct seg) :
    (s.step a).reads = s.reads ∨ ∃ read result, (s.step a).reads = s.reads ++ [(read, result)] ∧
      ∀ out, result = .ok out → ∃ file, s.readFrom read file = .ok out := by
  cases a with
  | fetch i start maxBatchBytes => exact .inl (effect_fetch s i start maxBatchBytes).2.reads
  | warm i populated maxBatchBytes => exact .inl (effect_warm s i populated maxBatchBytes).2.reads
  | advance i n => exact .inl (effect_advance s i n).2.reads
  | failFill | unlinkPresent | failEvict | fetched | failRead | retire => exact .inl rfl
  | unlinkBody | find =>
    left
    rw [step]
    split_ifs
    all_goals rfl
  | test r =>
    left
    rw [step]
    split
    all_goals rfl
  | openBody r =>
    rw [step]
    split
    · exact .inl rfl
    · exact .inr ⟨_, _, rfl, fun out h => by cases h⟩
    · exact .inl rfl
  | hit r read =>
    left
    rw [step]
    split
    · split_ifs
      all_goals rfl
    · rfl
  | readAt r =>
    rw [step]
    split
    · exact .inr ⟨_, _, rfl, fun out h => ⟨_, h⟩⟩
    · exact .inl rfl

variable {s}

/-! ### One step -/

/-- The check makes every read right, whatever it read. -/
theorem ReadsRight.step (h : s.ReadsRight) (a : CacheAct seg) : (s.step a).ReadsRight := by
  obtain hreads | ⟨read, result, hreads, hresult⟩ := reads_step s a
  · rw [ReadsRight, hreads]
    exact h
  · intro read' out hmem
    rw [hreads, mem_append, mem_singleton] at hmem
    obtain hmem | hmem := hmem
    · exact h read' out hmem
    · obtain ⟨rfl, rfl⟩ := Prod.mk.inj hmem
      obtain ⟨file, hfile⟩ := hresult out rfl
      exact ReadCodecs.readBody_eq (seg.determines _ _ read'.found read'.data) read'.inside hfile

theorem held_congr {bits : Bitset} (files : s'.files = s.files)
    (body : s'.body = s.body) : s'.Held bits ↔ s.Held bits := by
  rw [Held, Held, files, body]

/-- Writing a range of the stored object takes no bytes away. -/
theorem holds_pwrite {warm : Bool} {b : FetchBatch} {bytes : Bytes}
    (get : seg.getBatch warm b = some bytes) (file : ℕ) {file' : ℕ} {entry : SegmentEntry}
    (h : seg.src.Holds (s.files file') entry) :
    seg.src.Holds ((s.pwrite file b.bodyStart bytes).files file') entry := by
  simp only [StoredSegment.getBatch] at get
  split_ifs at get with hlen hverify
  obtain rfl := Option.some.inj get
  dsimp only [pwrite]
  by_cases hfile : file' = file
  · subst hfile
    rw [update_self]
    exact FileBytes.SameAt.writeAt_slice h (not_not.mp hlen)
  · rw [update_of_ne hfile]
    exact h

theorem held_write {warm : Bool} {b : FetchBatch} {bytes : Bytes} {file : ℕ}
    (get : seg.getBatch warm b = some bytes)
    (files : s'.files = (s.pwrite file b.bodyStart bytes).files) (body : s'.body = s.body)
    {bits : Bitset} (h : s.Held bits) : s'.Held bits := by
  intro i entry hi hdata hbit file' hbody
  rw [body] at hbody
  rw [files]
  exact holds_pwrite get file (h i entry hi hdata hbit file' hbody)

/-- A new file has only entries without bytes. -/
theorem holds_nil_iff {entry : SegmentEntry} (hmem : entry ∈ seg.src.entries)
    (hdata : entry.kind.isData = true) : seg.src.Holds [] entry ↔ entry.storedLength = 0 := by
  constructor
  · intro h
    by_contra hne
    have hfits := seg.fits entry hmem hdata
    have hbyte := h entry.storedOffset le_rfl (by omega)
    rw [List.getElem?_nil, List.getElem?_eq_getElem (by omega)] at hbyte
    cases hbyte
  · intro h
    rw [SegmentSource.Holds, h]
    exact sameAt_zero _ _ _

theorem marked_eq (s : SegmentCache seg) (i : ℕ) : s.marked i = (s.present.getD []).get i := by
  rw [marked]
  cases s.present with
  | none => rfl
  | some bits => rfl

/-- **A step keeps the bits right exactly if it is careful.** -/
theorem marksRight_step (h : s.MarksRight) (a : CacheAct seg) :
    (s.step a).MarksRight ↔ s.Careful a := by
  cases effect_step s a with
  | keep hc files body present =>
    rw [MarksRight, present, held_congr files body]
    exact iff_of_true h hc
  | unlink hc gone =>
    refine iff_of_true ?_ hc
    intro i entry _ _ hbit file hbody
    obtain gone | gone := gone
    · rw [gone] at hbit
      cases hbit
    · rw [gone] at hbody
      cases hbody
  | write hc get files body present =>
    refine iff_of_true ?_ hc
    rw [MarksRight, present]
    exact held_write get files body h
  | create act filler opens absent files body present =>
    subst act
    simp only [Careful, filler, MarksRight, Held, files, body, present, marked_eq]
    constructor
    · intro hheld _ _ i entry hi hdata hbit
      have hnew := hheld i entry hi hdata hbit _ rfl
      rw [update_self] at hnew
      exact (holds_nil_iff (mem_of_getElem? hi) hdata).mp hnew
    · intro hempty i entry hi hdata hbit file hfile
      obtain rfl := Option.some.inj hfile
      rw [update_self]
      exact (holds_nil_iff (mem_of_getElem? hi) hdata).mpr (hempty opens absent i entry hi hdata hbit)
  | mark act filler files body present =>
    subst act
    simp only [Careful, filler]
    rw [MarksRight, present]
    exact held_congr files body

/-! ### Stopping what runs -/

/-- The number of the thing that takes the step. -/
def index : CacheAct seg → ℕ
  | .fetch i _ _ | .warm i _ _ | .advance i _ | .failFill i => i
  | .unlinkPresent j | .unlinkBody j | .failEvict j => j
  | .find r _ | .test r | .fetched r _ | .openBody r | .hit r _ | .readAt r | .failRead r => r
  | .retire => 0

theorem FillFrame.idle {i k : ℕ} (h : FillFrame s i s') (hk : k ≠ i)
    (hidle : s.Idle k) : s'.Idle k := by
  rw [Idle, h.fillers k hk, h.evicting, h.readers]
  exact hidle

theorem Idle.setReader {k r : ℕ} (h : s.Idle k) (hk : k ≠ r) (reader : Option (CacheReader seg)) :
    (s.setReader r reader).Idle k := by
  refine ⟨h.1, h.2.1, ?_⟩
  exact (update_of_ne hk _ _).trans h.2.2

/-- A step starts nothing under another number. -/
theorem Idle.step {k : ℕ} (h : s.Idle k) (hk : k ≠ index a) :
    (s.step a).Idle k := by
  cases a with
  | fetch i start maxBatchBytes => exact (effect_fetch s i start maxBatchBytes).2.idle hk h
  | warm i populated maxBatchBytes => exact (effect_warm s i populated maxBatchBytes).2.idle hk h
  | advance i n => exact (effect_advance s i n).2.idle hk h
  | failFill i => exact ⟨(update_of_ne hk _ _).trans h.1, h.2⟩
  | unlinkPresent | failEvict => exact ⟨h.1, (update_of_ne hk _ _).trans h.2.1, h.2.2⟩
  | unlinkBody j =>
    rw [SegmentCache.step]
    split_ifs
    · exact ⟨h.1, (update_of_ne hk _ _).trans h.2.1, h.2.2⟩
    · exact h
  | find r read =>
    rw [SegmentCache.step]
    split_ifs
    · exact h.setReader hk _
    · exact h
  | test | readAt =>
    rw [SegmentCache.step]
    split
    · exact h.setReader hk _
    · exact h
  | fetched | failRead => exact h.setReader hk _
  | openBody r =>
    rw [SegmentCache.step]
    split
    · exact h.setReader hk _
    · exact h.setReader hk _
    · exact h
  | hit r read =>
    rw [SegmentCache.step]
    split
    · split_ifs
      · exact h.setReader hk _
      · exact h
    · exact h
  | retire => exact h

theorem Idle.foldl {k : ℕ} (h : s.Idle k) {acts : List (CacheAct seg)}
    (hk : ∀ a ∈ acts, k ≠ index a) : (acts.foldl SegmentCache.step s).Idle k := by
  induction acts generalizing s with
  | nil => exact h
  | cons a acts ih =>
    exact ih (h.step (hk a mem_cons_self)) fun b hb => hk b (mem_cons_of_mem _ hb)

/-- Finitely much is in progress. -/
def Bounded (s : SegmentCache seg) : Prop := ∃ n, ∀ k, n ≤ k → s.Idle k

theorem Bounded.step (h : s.Bounded) (a : CacheAct seg) : (s.step a).Bounded := by
  obtain ⟨n, hn⟩ := h
  refine ⟨max n (index a + 1), fun k hk => (hn k (by omega)).step (by omega)⟩

/-- Stop all that runs under numbers below `n`. -/
def stopAll (n : ℕ) : List (CacheAct seg) :=
  (List.range n).flatMap fun i => [.failFill i, .failEvict i, .failRead i]

theorem stops_of_mem_stopAll {n : ℕ} (h : a ∈ stopAll n) : a.Stops := by
  obtain ⟨i, -, h⟩ := mem_flatMap.mp h
  simp only [mem_cons, not_mem_nil, or_false] at h
  obtain rfl | rfl | rfl := h
  all_goals trivial

/-- Stopping leaves the files. -/
theorem files_stops {stops : List (CacheAct seg)} (h : ∀ a ∈ stops, a.Stops)
    (s : SegmentCache seg) :
    (stops.foldl step s).files = s.files ∧ (stops.foldl step s).body = s.body ∧
      (stops.foldl step s).present = s.present := by
  induction stops generalizing s with
  | nil => exact ⟨rfl, rfl, rfl⟩
  | cons a stops ih =>
    have hrest := ih (fun b hb => h b (mem_cons_of_mem _ hb)) (s.step a)
    have ha := h a mem_cons_self
    cases a with
    | failFill | failEvict | failRead => exact hrest
    | _ => exact absurd ha id

theorem marksRight_stops {stops : List (CacheAct seg)} (h : ∀ a ∈ stops, a.Stops)
    (s : SegmentCache seg) : (stops.foldl step s).MarksRight ↔ s.MarksRight := by
  obtain ⟨files, body, present⟩ := files_stops h s
  rw [MarksRight, present]
  exact held_congr files body

/-- One thing is stopped, and nothing is started. -/
theorem idle_stop (s : SegmentCache seg) (i k : ℕ) (h : k = i ∨ s.Idle k) :
    (((s.step (.failFill i)).step (.failEvict i)).step (.failRead i)).Idle k := by
  by_cases hk : k = i
  · subst hk
    exact ⟨update_self .., update_self .., update_self ..⟩
  · have h := h.resolve_left hk
    exact ((h.step (a := .failFill i) hk).step (a := .failEvict i) hk).step (a := .failRead i) hk

theorem idle_stopAll (n : ℕ) (s : SegmentCache seg) (k : ℕ) (h : k < n ∨ s.Idle k) :
    ((stopAll n).foldl step s).Idle k := by
  induction n with
  | zero => exact h.resolve_left (Nat.not_lt_zero k)
  | succ n ih =>
    rw [stopAll, range_succ, flatMap_append, foldl_append]
    refine idle_stop _ n k ?_
    obtain hlt | hidle := h
    · obtain hlt | heq := Nat.lt_succ_iff_lt_or_eq.mp hlt
      · exact .inr (ih (.inl hlt))
      · exact .inl heq
    · exact .inr (ih (.inr hidle))

/-- **What is in progress can stop**, so the bits are right at rest exactly if they are right. -/
theorem rightAtRest_iff (h : s.Bounded) : s.RightAtRest ↔ s.MarksRight := by
  obtain ⟨n, hn⟩ := h
  constructor
  · intro hrest
    have hquiet : ((stopAll n).foldl step s).Quiet := fun k =>
      idle_stopAll n s k ((lt_or_ge k n).imp_right (hn k))
    exact (marksRight_stops (fun _ => stops_of_mem_stopAll) s).mp
      (hrest _ (fun _ => stops_of_mem_stopAll) hquiet)
  · intro hmarks stops hstops _
    exact (marksRight_stops hstops s).mpr hmarks

end SegmentCache

/-! ### Runs -/

open SegmentCache

/-- A cache on which nothing runs, with right bits. -/
structure QuietCache (seg : StoredSegment) where
  body : Option FileBytes
  present : Option Bitset
  bits : Bitset
  marks : ∀ i entry, seg.src.entries[i]? = some entry → entry.kind.isData = true →
    (present.getD []).get i = true → ∀ f, body = some f → seg.src.Holds f entry

namespace QuietCache

variable {seg : StoredSegment} (start : QuietCache seg)

/-- The state a start describes. -/
def state : SegmentCache seg where
  files _ := start.body.getD []
  nextFile := 1
  body := start.body.map fun _ => 0
  present := start.present
  bits := start.bits
  descriptor := none
  lock := none
  leases := []
  fillers _ := none
  evicting _ := false
  readers _ := none
  reads := []

theorem marksRight_state : start.state.MarksRight := by
  intro i entry hi hdata hbit file hfile
  cases hbody : start.body with
  | none =>
    simp only [state, hbody] at hfile
    cases hfile
  | some f =>
    simp only [state, hbody]
    exact start.marks i entry hi hdata hbit f hbody

theorem bounded_state : start.state.Bounded := ⟨0, fun _ _ => ⟨rfl, rfl, rfl⟩⟩

theorem readsRight_state : start.state.ReadsRight := by
  intro read out hmem
  exact absurd hmem not_mem_nil

/-- **Every read that returns is right**, along every run. -/
theorem reads_right (acts : List (CacheAct seg)) :
    Run.Always step SegmentCache.ReadsRight start.state acts :=
  Run.always_of_each (C := fun _ _ => True) (fun _ a h _ => h.step a) start.readsRight_state
    (Run.each_of_forall (fun _ _ => trivial) _ _)

/-- **Reads are right, and bits are right at rest, exactly along careful runs.** -/
theorem marks_right_iff (acts : List (CacheAct seg)) :
    Run.Always step (fun s => s.ReadsRight ∧ s.RightAtRest) start.state acts ↔
      Run.Each step Careful start.state acts := by
  have hlegal : Run.Each step (fun (_ : SegmentCache seg) _ => True) start.state acts :=
    Run.each_of_forall (fun _ _ => trivial) _ _
  refine Run.always_iff_each (I := SegmentCache.Bounded) (L := fun _ _ => True)
    (fun s a h _ => h.step a) ?_ start.bounded_state
    ⟨start.readsRight_state, (rightAtRest_iff start.bounded_state).mpr start.marksRight_state⟩
    hlegal
  intro s a hbounded _ hright
  rw [rightAtRest_iff (hbounded.step a), and_iff_right (hright.1.step a)]
  exact marksRight_step ((rightAtRest_iff hbounded).mp hright.2) a

end QuietCache

/-! ### An eviction in between

Two entries with a gap between their bodies. A fetch of the first opens `.body`; the eviction unlinks
`.present` and `.body`; a fetch of the second creates a new `.body`, writes and ends; the first writes
to its unlinked file and sets its bit. -/

namespace UnlinkedHandle

/-- Two bodies of two bytes, with a gap of two between. -/
def entries : List SegmentEntry :=
  [{ hash := 1, startLba := 0, lbaLength := 1, kind := .data, storedOffset := 0,
      storedLength := 2 },
    { hash := 2, startLba := 1, lbaLength := 1, kind := .data, storedOffset := 4,
      storedLength := 2 }]

/-- Hashes that tell the two contents and nothing from each other and from the rest. -/
def digest (x : Bytes) : Hash :=
  if x = [1, 1] then 1 else if x = [2, 2] then 2 else if x = [] then 3 else 0

/-- Codecs that store plaintext as it is. -/
def codecs : ReadCodecs where
  blake3 := digest
  storedHash _ := 0
  decode _ stored := .ok stored
  compressBody _ _ := .ok none
  applyDelta _ _ := .error "no deltas"
  cv _ _ x := digest x
  mergeSubtrees _ _ _ := 0

theorem determines {y : Bytes} (hy : y = [1, 1] ∨ y = [2, 2]) :
    codecs.Determines (digest y) y := by
  refine ⟨fun x hx => ?_, fun size cvs plainLen i x h => ?_⟩
  · change digest x = _ at hx
    obtain rfl | rfl := hy
    · rw [digest] at hx
      split_ifs at hx with h₁
      all_goals first | exact h₁ | exact absurd hx (by decide)
    · rw [digest] at hx
      split_ifs at hx with h₁ h₂
      all_goals first | exact h₂ | exact absurd hx (by decide)
  · rw [ReadCodecs.rootFromCvs] at h
    split_ifs at h
    have hzero : (0 : Hash) = digest y := Except.ok.inj h
    obtain rfl | rfl := hy
    all_goals exact absurd hzero (by decide)

/-- What the two bodies decode to. -/
def content (i : ℕ) : Bytes := if i = 0 then [1, 1] else [2, 2]

theorem entries_cases {i : ℕ} {entry : SegmentEntry} (h : entries[i]? = some entry) :
    (i = 0 ∧ some entry = entries[0]?) ∨ (i = 1 ∧ some entry = entries[1]?) := by
  match i with
  | 0 => exact .inl ⟨rfl, h.symm⟩
  | 1 => exact .inr ⟨rfl, h.symm⟩
  | i + 2 => cases h

/-- The segment of the two bodies. -/
def segment : StoredSegment where
  src := ⟨entries, 6, 0, [1, 1, 0, 0, 2, 2]⟩
  codecs := codecs
  content := content
  decodes i entry hi _ := by
    obtain ⟨rfl, h⟩ | ⟨rfl, h⟩ := entries_cases hi
    all_goals
      obtain rfl := Option.some.inj h
      rfl
  determines i entry hi _ := by
    obtain ⟨rfl, h⟩ | ⟨rfl, h⟩ := entries_cases hi
    · obtain rfl := Option.some.inj h
      exact determines (.inl rfl)
    · obtain rfl := Option.some.inj h
      exact determines (.inr rfl)
  fits := by decide

/-- Nothing is cached. -/
def start : QuietCache segment where
  body := none
  present := none
  bits := [0]
  marks _ _ _ _ _ _ h := by cases h

/-- Open, write, lock, read and write `.present`, replace the bits. -/
def rest (i : ℕ) : List (CacheAct segment) := List.replicate 5 (.advance i 0)

/-- A fetch holds a descriptor across an eviction. -/
def acts : List (CacheAct segment) :=
  [.fetch 0 0 2, .advance 0 0, .unlinkPresent 0, .unlinkBody 0, .fetch 1 1 2, .advance 1 0] ++
    rest 1 ++ rest 0

/-- All of it is done by the first two. -/
theorem quiet_acts : (acts.foldl step start.state).Quiet := by
  intro k
  match k with
  | 0 | 1 => exact ⟨rfl, rfl, rfl⟩
  | k + 2 =>
    refine Idle.foldl ⟨rfl, rfl, rfl⟩ ?_
    have hindex : ∀ a ∈ acts, index a < 2 := by decide
    intro a ha
    have hlt := hindex a ha
    omega

/-- Nothing runs any more, both bits are set, and `.body` has a hole for the first entry. -/
theorem marks_bytes_of_unlinked_file : (acts.foldl step start.state).Quiet ∧
      (acts.foldl step start.state).present = some [3] ∧
      (acts.foldl step start.state).body = some 2 ∧
      (acts.foldl step start.state).files 2 = [0, 0, 0, 0, 2, 2] ∧
      ¬ (acts.foldl step start.state).MarksRight := by
  refine ⟨quiet_acts, rfl, rfl, rfl, fun h => ?_⟩
  have hbyte := h 0 _ rfl rfl rfl 2 rfl 0 le_rfl (by decide)
  exact absurd hbyte (by decide)

end UnlinkedHandle

end Elide
