import Elide.Rewrite.Outputs
import Elide.Lib.FileBytes
import Elide.Lib.ByteReader

/-!
# Reading a stored body

A read goes to a file at the offset its index entry gives, and whatever it finds there it decodes
and checks against the content hash of the extent. An unchunked payload is decoded as a whole. A
chunked one starts with a table of chaining values, which are subtree values of the extent's own hash
tree: only the chunks of the wanted range are decoded, their values are put in for those of the table,
and the root over all of them is compared with the hash.

The check is what a read can rely on when the file is not the one the index means. Neither arm looks
at how the bytes got there, so nothing is assumed about the file: what returns without an error is
the wanted range of the content, provided the hash determines the content
(`ReadCodecs.Determines`). The table is not signed, and is not trusted either.

## Main results

* `ReadCodecs.serveChunked_eq`, `ReadCodecs.readBody_eq`: what a read returns from any file is the
  range of the content that the hash determines.
-/

namespace Elide

open List FileBytes Except Nat Prod

open ByteReader (ofBytes)

/-! ### Chunks -/

/-- Smallest and largest chunk a table may declare, by their log2. -/
def MIN_LOG2 : ℕ := 10

/-- Log of the largest chunk a table may declare. -/
def MAX_LOG2 : ℕ := 28

/-- Plaintext bytes per chunk, by its log2. -/
structure ChunkSize where
  log2 : ℕ
  min_le : MIN_LOG2 ≤ log2
  le_max : log2 ≤ MAX_LOG2

namespace ChunkSize

/-- The size a table declares, if it is in range. -/
def fromLog2 (log2 : ℕ) : Except IoError ChunkSize :=
  if h : MIN_LOG2 ≤ log2 ∧ log2 ≤ MAX_LOG2 then .ok ⟨log2, h.1, h.2⟩
  else .error ("chunk table declares a chunk of 2^" ++ toString log2 ++
    " bytes, outside 2^10..=2^28")

variable (size : ChunkSize)

/-- Plaintext bytes in a chunk. -/
def bytes : ℕ := 2 ^ size.log2

/-- Number of chunks that many bytes divide into. -/
def count (plainLen : ℕ) : ℕ := (plainLen + size.bytes - 1) / size.bytes

/-- Where a chunk starts and ends. -/
def range (index plainLen : ℕ) : ℕ × ℕ :=
  (index * size.bytes, min (index * size.bytes + size.bytes) plainLen)

/-- Indices of the chunks of a range. -/
def covering (start stop : ℕ) : List ℕ :=
  if stop ≤ start then []
  else List.range' (start / size.bytes) ((stop - 1) / size.bytes + 1 - start / size.bytes)

theorem bytes_pos : 0 < size.bytes := Nat.two_pow_pos _

theorem nodup_covering (start stop : ℕ) : (size.covering start stop).Nodup := by
  rw [covering]
  split_ifs
  · exact nodup_nil
  · exact nodup_range'

/-- A covering chunk starts before the range ends. -/
theorem start_lt_of_mem_covering {start stop index : ℕ} (h : index ∈ size.covering start stop) :
    index * size.bytes < stop := by
  rw [covering] at h
  split_ifs at h with hempty
  · exact absurd h not_mem_nil
  · rw [mem_range'_1] at h
    have hle : index ≤ (stop - 1) / size.bytes := by omega
    have hmul := (le_div_iff_mul_le size.bytes_pos).mp hle
    omega

/-- It ends after the range starts. -/
theorem lt_end_of_mem_covering {start stop index : ℕ} (h : index ∈ size.covering start stop) :
    start < index * size.bytes + size.bytes ∧ start < stop := by
  rw [covering] at h
  split_ifs at h with hempty
  · exact absurd h not_mem_nil
  · rw [mem_range'_1] at h
    have hlt := (div_lt_iff_lt_mul size.bytes_pos).mp (lt_add_one_of_le h.1)
    rw [add_mul] at hlt
    omega

/-- The chunk of a byte of the range is one of them. -/
theorem div_mem_covering {start stop i : ℕ} (hlo : start ≤ i) (hhi : i < stop) :
    i / size.bytes ∈ size.covering start stop := by
  have hle : start / size.bytes ≤ i / size.bytes := Nat.div_le_div_right hlo
  have hle' : i / size.bytes ≤ (stop - 1) / size.bytes := Nat.div_le_div_right (by omega)
  rw [covering, if_neg (by omega), mem_range'_1]
  omega

theorem lt_count_iff (index plainLen : ℕ) :
    index < size.count plainLen ↔ index * size.bytes < plainLen := by
  have hpos := size.bytes_pos
  rw [count, lt_iff_add_one_le, le_div_iff_mul_le hpos, add_mul]
  omega

end ChunkSize

/-! ### The chunk table -/

/-- Bytes of a chunk in the table: its stored length and its chaining value. -/
def TABLE_ENTRY_LEN : ℕ := 4 + 32

/-- Bytes of the plaintext length and the log2 of the chunk size. -/
def TABLE_HEADER_LEN : ℕ := 5

/-- First read of a chunk table. -/
def TABLE_READ_PREFIX : ℕ := 4096

/-- Cap on the plaintext of an extent. -/
def MAX_EXTENT_PLAINTEXT : ℕ := 256 * 1024 * 1024

/-- The table that a chunked payload starts with. -/
structure ChunkTable where
  size : ChunkSize
  plainLen : ℕ
  storedLengths : List ℕ
  cvs : List Hash

/-- That many bytes of the file, or an error. -/
def readExactAt (f : FileBytes) (len off : ℕ) : Except IoError Bytes :=
  let bytes := f.slice off len
  if bytes.length = len then .ok bytes else .error "failed to fill whole buffer"

namespace ChunkTable

/-- Bytes of a table, its header included. -/
def encodedLen (plainLen : ℕ) (size : ChunkSize) : ℕ :=
  TABLE_HEADER_LEN + size.count plainLen * TABLE_ENTRY_LEN

/-- Read the header alone: the plaintext length and the chunk size. -/
def peekHeader (stored : Bytes) : Except IoError (ℕ × ChunkSize) :=
  if stored.length < TABLE_HEADER_LEN then .error "chunked payload missing its table header"
  else do
    let size ← ChunkSize.fromLog2 (ofBytes (slice stored 4 1))
    return (ofBytes (slice stored 0 4), size)

/-- Read a table from the front of a stored payload. -/
def parse (stored : Bytes) : Except IoError ChunkTable := do
  let (plainLen, size) ← peekHeader stored
  if stored.length < encodedLen plainLen size then
    throw "chunked payload shorter than its table"
  let entry (i : ℕ) : ℕ := TABLE_HEADER_LEN + i * TABLE_ENTRY_LEN
  return {
    size
    plainLen
    storedLengths := (List.range (size.count plainLen)).map fun i =>
      ofBytes (slice stored (entry i) 4)
    cvs := (List.range (size.count plainLen)).map fun i =>
      BitVec.ofNat 256 (ofBytes (slice stored (entry i + 4) 32)) }

/-- Where a chunk starts and ends in the payload. -/
def chunkSpan (table : ChunkTable) (index : ℕ) : Except IoError (ℕ × ℕ) :=
  match table.storedLengths[index]? with
  | none => .error ("chunk " ++ toString index ++ " is past the chunk table")
  | some len =>
    let start := encodedLen table.plainLen table.size + (table.storedLengths.take index).sum
    .ok (start, start + len)

/-- The table at the head of the payload at `off`. The first read may be too short for it. -/
def readTable (f : FileBytes) (off bodyLength : ℕ) : Except IoError ChunkTable := do
  let head ← readExactAt f (min TABLE_READ_PREFIX bodyLength) off
  let (plainLen, size) ← peekHeader head
  if MAX_EXTENT_PLAINTEXT < plainLen then
    throw ("chunked payload declares " ++ toString plainLen ++ " bytes of plaintext, over the " ++
      toString MAX_EXTENT_PLAINTEXT ++ " cap")
  let tableLen := encodedLen plainLen size
  if head.length < tableLen then
    parse (← readExactAt f tableLen off)
  else
    parse head

end ChunkTable

/-! ### The read -/

/-- The functions of bytes a read calls. A chaining value depends on where its chunk stands. -/
structure ReadCodecs extends Codecs where
  cv : ChunkSize → ℕ → Bytes → Hash
  /-- The root over chaining values, merged as the hash splits that many bytes. -/
  mergeSubtrees : ChunkSize → List Hash → ℕ → Hash

namespace ReadCodecs

variable (c : ReadCodecs) (size : ChunkSize)

/-- Root hash of an extent from the chaining values of its chunks. -/
def rootFromCvs (cvs : List Hash) (plainLen : ℕ) : Except IoError Hash :=
  if cvs.length ≠ size.count plainLen then
    .error ("chunk table holds " ++ toString cvs.length ++ " chaining values for " ++
      toString plainLen ++ " bytes of plaintext at a " ++ toString size.bytes ++
      "-byte chunk, expected " ++ toString (size.count plainLen))
  else if cvs.length < 2 then .error "an extent of one chunk has no root hash to reconstruct"
  else .ok (c.mergeSubtrees size cvs plainLen)

/-- The message of a failed check. -/
def hashMismatch (got expected : Hash) (len : ℕ) : IoError :=
  "extent body hashed " ++ got.toHex ++ " instead of " ++ expected.toHex ++ " (" ++
    toString len ++ " bytes)"

/-- Check a whole plaintext against the hash it is claimed under. -/
def verifyExtentContent (expected : Hash) (payload : Bytes) : Except IoError Unit :=
  if c.blake3 payload = expected then .ok ()
  else .error (hashMismatch (c.blake3 payload) expected payload.length)

/-- Check the whole, then cut out what was asked for. -/
def verifyAndSlice (plain : Bytes) (expected : Hash) (srcStart srcEnd : ℕ) :
    Except IoError Bytes := do
  c.verifyExtentContent expected plain
  if srcEnd ≤ plain.length then return slice plain srcStart (srcEnd - srcStart)
  else throw "corrupt segment: payload too short"

/-- Decode into a destination of that length. -/
def decodeInto (codec : Codec) (stored : Bytes) (len : ℕ) : Except IoError Bytes := do
  let plain ← c.decode codec stored
  if plain.length = len then return plain
  else throw "payload does not decode to its declared length"

/-- A chunk, out of the stored bytes that start at `first` of the payload. -/
def decodeChunk (table : ChunkTable) (compressed : Bytes) (first index : ℕ) :
    Except IoError Bytes := do
  let span ← table.chunkSpan index
  let r := table.size.range index table.plainLen
  c.decodeInto .zstd (slice compressed (span.1 - first) (span.2 - span.1)) (r.2 - r.1)

/-- The table's chaining values, with those of the decoded chunks in their places. -/
def substitute (cvs : List Hash) (pieces : List (ℕ × Bytes)) : List Hash :=
  pieces.foldl (fun cvs p => cvs.set p.1 (c.cv size p.1 p.2)) cvs

/-- What a chunk contributes to the wanted range: all of it, or the overlap. -/
def place (plainLen srcStart srcEnd : ℕ) (out : Bytes) (piece : ℕ × Bytes) : Bytes :=
  let r := size.range piece.1 plainLen
  let lo := max srcStart r.1
  let hi := min srcEnd r.2
  writeAt out (lo - srcStart) (slice piece.2 (lo - r.1) (hi - lo))

/-- Read and check only the chunks the range covers. -/
def serveChunked (f : FileBytes) (off bodyLength : ℕ) (expected : Hash) (srcStart srcEnd : ℕ) :
    Except IoError Bytes := do
  let table ← ChunkTable.readTable f off bodyLength
  let wanted := table.size.covering srcStart srcEnd
  let first ← table.chunkSpan (wanted.headD 0)
  let last ← table.chunkSpan (wanted.getLastD 0)
  if bodyLength < last.2 then throw "chunk table spans past the stored payload"
  else
    let compressed ← readExactAt f (last.2 - first.1) (off + first.1)
    let chunks ← wanted.mapM (c.decodeChunk table compressed first.1)
    let pieces := wanted.zip chunks
    let root ← c.rootFromCvs table.size (c.substitute table.size table.cvs pieces) table.plainLen
    if root = expected then
      return pieces.foldl (place table.size table.plainLen srcStart srcEnd)
        (List.replicate (srcEnd - srcStart) 0)
    else throw (hashMismatch root expected table.plainLen)

/-- The wanted range of an extent stored at `off` of a file. -/
def readBody (codec : Codec) (f : FileBytes) (off bodyLength : ℕ) (expected : Hash)
    (srcStart srcEnd : ℕ) : Except IoError Bytes :=
  match codec with
  | .zstdChunked => c.serveChunked f off bodyLength expected srcStart srcEnd
  | .none => do
    let stored ← readExactAt f bodyLength off
    c.verifyAndSlice stored expected srcStart srcEnd
  | .lz4 => do
    let stored ← readExactAt f bodyLength off
    let plain ← c.decode .lz4 stored
    c.verifyAndSlice plain expected srcStart srcEnd
  | .zstd => do
    let stored ← readExactAt f bodyLength off
    let plain ← c.decode .zstd stored
    c.verifyAndSlice plain expected srcStart srcEnd

/-! ### What the hash determines -/

/-- The hash determines the content: no other bytes have it, and in a table that merges to it a
chunk has the chaining value of no other bytes than those of the content at its place, which the
last one takes to the end. The rest of the table is not determined, nor is the length it declares:
inner nodes of the tree may stand for chunks. -/
structure Determines (expected : Hash) (plain : Bytes) : Prop where
  whole : ∀ x, c.blake3 x = expected → x = plain
  chunk : ∀ size cvs plainLen i x, c.rootFromCvs size cvs plainLen = .ok expected →
    cvs[i]? = some (c.cv size i x) → x.length ≤ size.bytes →
    slice plain (i * size.bytes) x.length = x ∧
      (i + 1 = cvs.length → i * size.bytes + x.length = plain.length)

variable {c} {srcEnd srcStart : ℕ} {expected : Hash} {plain : Bytes}

theorem verifyAndSlice_eq {x out : Bytes} (hdet : c.Determines expected plain)
    (h : c.verifyAndSlice x expected srcStart srcEnd = .ok out) :
    out = slice plain srcStart (srcEnd - srcStart) := by
  obtain ⟨_, hcheck, h⟩ := Run.exists_of_bind_ok h
  rw [verifyExtentContent] at hcheck
  split_ifs at hcheck with hhash
  obtain rfl := hdet.whole x hhash
  split_ifs at h with hend
  exact (ok.inj h).symm

theorem mapM_spec {α β : Type} {g : α → Except IoError β} {l : List α} {out : List β}
    (h : l.mapM g = .ok out) : l.length = out.length ∧ ∀ p ∈ l.zip out, g p.1 = .ok p.2 := by
  induction l generalizing out with
  | nil =>
    obtain rfl := ok.inj h
    exact ⟨rfl, forall_mem_nil _⟩
  | cons a l ih =>
    rw [mapM_cons] at h
    obtain ⟨b, hb, h⟩ := Run.exists_of_bind_ok h
    obtain ⟨bs, hbs, h⟩ := Run.exists_of_bind_ok h
    obtain rfl := ok.inj h
    exact ⟨congrArg _ (ih hbs).1, forall_mem_cons.mpr ⟨hb, (ih hbs).2⟩⟩

variable {off bodyLength : ℕ} {f : FileBytes}

/-- A table has as many lengths as chaining values. -/
theorem length_of_readTable {table : ChunkTable}
    (h : ChunkTable.readTable f off bodyLength = .ok table) :
    table.storedLengths.length = table.cvs.length := by
  have hparse : ∀ {stored}, ChunkTable.parse stored = .ok table →
      table.storedLengths.length = table.cvs.length := by
    intro stored h
    obtain ⟨⟨plainLen, size⟩, -, h⟩ := Run.exists_of_bind_ok h
    dsimp only at h
    split_ifs at h
    · cases h
    · obtain rfl := ok.inj h
      rw [length_map, length_map]
  obtain ⟨head, -, h⟩ := Run.exists_of_bind_ok h
  obtain ⟨⟨plainLen, size⟩, -, h⟩ := Run.exists_of_bind_ok h
  dsimp only at h
  split at h
  · cases h
  · split at h
    · obtain ⟨stored, -, h⟩ := Run.exists_of_bind_ok h
      exact hparse h
    · exact hparse h

/-- A decoded chunk is in the table, and as long as the table says. -/
theorem of_decodeChunk {table : ChunkTable} {compressed x : Bytes} {first i : ℕ}
    (h : c.decodeChunk table compressed first i = .ok x) : i < table.storedLengths.length ∧
      x.length = (table.size.range i table.plainLen).2 - (table.size.range i table.plainLen).1 := by
  obtain ⟨span, hspan, h⟩ := Run.exists_of_bind_ok h
  obtain ⟨plain, -, h⟩ := Run.exists_of_bind_ok h
  split_ifs at h with hlen
  obtain rfl := ok.inj h
  refine ⟨?_, hlen⟩
  rw [ChunkTable.chunkSpan] at hspan
  split at hspan
  · cases hspan
  · next hget => exact (List.getElem?_eq_some_iff.mp hget).1

theorem substitute_cons (cvs : List Hash) (p : ℕ × Bytes) (pieces : List (ℕ × Bytes)) :
    c.substitute size cvs (p :: pieces) =
      c.substitute size (cvs.set p.1 (c.cv size p.1 p.2)) pieces := rfl

variable {size : ChunkSize} {pieces : List (ℕ × Bytes)} {i : ℕ} {cvs : List Hash}

/-- Other places are left. -/
theorem getElem?_substitute_of_not_mem (hi : i ∉ pieces.map fst) :
    (c.substitute size cvs pieces)[i]? = cvs[i]? := by
  induction pieces generalizing cvs with
  | nil => rfl
  | cons p pieces ih =>
    rw [map_cons, mem_cons, not_or] at hi
    rw [substitute_cons, ih hi.2, List.getElem?_set_ne (Ne.symm hi.1)]

theorem length_substitute (size : ChunkSize) (cvs : List Hash) (pieces : List (ℕ × Bytes)) :
    (c.substitute size cvs pieces).length = cvs.length := by
  induction pieces generalizing cvs with
  | nil => rfl
  | cons p pieces ih => rw [substitute_cons, ih, length_set]

/-- A decoded chunk has its place. -/
theorem getElem?_substitute (hnodup : (pieces.map fst).Nodup) {x : Bytes}
    (hmem : (i, x) ∈ pieces) (hi : i < cvs.length) :
    (c.substitute size cvs pieces)[i]? = some (c.cv size i x) := by
  induction pieces generalizing cvs with
  | nil => exact absurd hmem not_mem_nil
  | cons p pieces ih =>
    rw [map_cons, nodup_cons] at hnodup
    rw [substitute_cons]
    rcases mem_cons.mp hmem with rfl | hmem
    · rw [getElem?_substitute_of_not_mem hnodup.1, List.getElem?_set_self hi]
    · exact ih hnodup.2 hmem (by rwa [length_set])

variable {plainLen : ℕ}

/-- Under the right root, a decoded chunk has the bytes of the content at its place. -/
theorem chunk_of_root (hdet : c.Determines expected plain)
    (hroot : c.rootFromCvs size (c.substitute size cvs pieces) plainLen = .ok expected)
    (hnodup : (pieces.map fst).Nodup) {x : Bytes} (hmem : (i, x) ∈ pieces)
    (hi : i < cvs.length) (hx : x.length ≤ size.bytes) :
    slice plain (i * size.bytes) x.length = x ∧
      (i + 1 = cvs.length → i * size.bytes + x.length = plain.length) := by
  have h := hdet.chunk size _ plainLen i x hroot (getElem?_substitute hnodup hmem hi) hx
  rwa [length_substitute] at h

/-- Where the part of a chunk stands in the wanted range, and how long it is. -/
def part (size : ChunkSize) (plainLen srcStart srcEnd index : ℕ) : ℕ × ℕ :=
  let r := size.range index plainLen
  (max srcStart r.1 - srcStart, min srcEnd r.2 - max srcStart r.1)

/-- A chunk of the content contributes its part of the wanted range of the content. -/
theorem place_chunk {x out : Bytes} (hend : srcStart < srcEnd → srcEnd ≤ plainLen)
    (hi : i ∈ size.covering srcStart srcEnd)
    (hx : slice plain (i * size.bytes) x.length = x)
    (hlen : x.length = (size.range i plainLen).2 - (size.range i plainLen).1) :
    place size plainLen srcStart srcEnd out (i, x) =
      writeAt out (part size plainLen srcStart srcEnd i).1
        (slice (slice plain srcStart (srcEnd - srcStart)) (part size plainLen srcStart srcEnd i).1
          (part size plainLen srcStart srcEnd i).2) := by
  have hstart := size.start_lt_of_mem_covering hi
  have hstop := size.lt_end_of_mem_covering hi
  have hpiece : ∀ {o l}, o + l ≤ x.length → slice x o l = slice plain (i * size.bytes + o) l :=
    fun h => (congrArg (slice · _ _) hx).symm.trans (slice_slice h)
  simp only [ChunkSize.range] at hlen
  simp only [place, part, ChunkSize.range]
  rw [slice_slice (by omega), hpiece (by omega)]
  congr 2
  omega

theorem foldl_place (hend : srcStart < srcEnd → srcEnd ≤ plainLen)
    (hpieces : ∀ p ∈ pieces, p.1 ∈ size.covering srcStart srcEnd ∧
      slice plain (p.1 * size.bytes) p.2.length = p.2 ∧
      p.2.length = (size.range p.1 plainLen).2 - (size.range p.1 plainLen).1)
    (out : Bytes) :
    pieces.foldl (place size plainLen srcStart srcEnd) out =
      ((pieces.map fst).map (part size plainLen srcStart srcEnd)).foldl
        (fun out p => writeAt out p.1
          (slice (slice plain srcStart (srcEnd - srcStart)) p.1 p.2)) out := by
  induction pieces generalizing out with
  | nil => rfl
  | cons p pieces ih =>
    obtain ⟨⟨hi, hx, hlen⟩, hpieces⟩ := forall_mem_cons.mp hpieces
    rw [foldl_cons, place_chunk hend hi hx hlen, ih hpieces]
    rfl

/-- The parts lie in the wanted range. -/
theorem part_le (hi : i ∈ size.covering srcStart srcEnd) :
    (part size plainLen srcStart srcEnd i).1 + (part size plainLen srcStart srcEnd i).2 ≤
      srcEnd - srcStart := by
  have hstart := size.start_lt_of_mem_covering hi
  simp only [part, ChunkSize.range]
  omega

/-- They cover it. -/
theorem exists_part (hend : srcStart < srcEnd → srcEnd ≤ plainLen)
    (hi : i < srcEnd - srcStart) :
    ∃ index ∈ size.covering srcStart srcEnd, (part size plainLen srcStart srcEnd index).1 ≤ i ∧
        i < (part size plainLen srcStart srcEnd index).1 +
          (part size plainLen srcStart srcEnd index).2 := by
  refine ⟨(srcStart + i) / size.bytes, size.div_mem_covering (by omega) (by omega), ?_⟩
  have hlo := div_mul_le_self (srcStart + i) size.bytes
  have hhi := lt_div_mul_add (a := srcStart + i) size.bytes_pos
  simp only [part, ChunkSize.range]
  omega

/-- **A chunked read returns the range of the content**, from whatever file. -/
theorem serveChunked_eq {out : Bytes}
    (hdet : c.Determines expected plain) (hend : srcEnd ≤ plain.length)
    (h : c.serveChunked f off bodyLength expected srcStart srcEnd = .ok out) :
    out = slice plain srcStart (srcEnd - srcStart) := by
  obtain ⟨table, htable, h⟩ := Run.exists_of_bind_ok h
  obtain ⟨first, -, h⟩ := Run.exists_of_bind_ok h
  obtain ⟨last, -, h⟩ := Run.exists_of_bind_ok h
  split_ifs at h with hspan
  obtain ⟨compressed, -, h⟩ := Run.exists_of_bind_ok h
  obtain ⟨chunks, hchunks, h⟩ := Run.exists_of_bind_ok h
  obtain ⟨root, hroot, hout⟩ := Run.exists_of_bind_ok h
  split_ifs at hout with hexpected
  obtain rfl := ok.inj hout
  subst hexpected
  have hlengths := length_of_readTable htable
  obtain ⟨size, plainLen, storedLengths, cvs⟩ := table
  dsimp only at hlengths hroot
  obtain ⟨hcount, hdecode⟩ := mapM_spec hchunks
  have hfst : ((size.covering srcStart srcEnd).zip chunks).map fst =
      size.covering srcStart srcEnd :=
    map_fst_zip hcount.le
  have hnodup : (((size.covering srcStart srcEnd).zip chunks).map fst).Nodup := by
    rw [hfst]
    exact size.nodup_covering srcStart srcEnd
  have hchunk : ∀ p ∈ (size.covering srcStart srcEnd).zip chunks, p.1 < cvs.length ∧
      p.2.length = (size.range p.1 plainLen).2 - (size.range p.1 plainLen).1 ∧
      slice plain (p.1 * size.bytes) p.2.length = p.2 ∧
      (p.1 + 1 = cvs.length → p.1 * size.bytes + p.2.length = plain.length) := by
    intro p hp
    obtain ⟨hlt, hlen⟩ := of_decodeChunk (hdecode p hp)
    refine ⟨hlengths ▸ hlt, hlen, chunk_of_root hdet hroot hnodup hp (hlengths ▸ hlt) ?_⟩
    simp only [ChunkSize.range] at hlen
    omega
  have hlong : srcStart < srcEnd → srcEnd ≤ plainLen := by
    intro hlt
    rw [rootFromCvs, length_substitute] at hroot
    split_ifs at hroot with hcount
    -- the chunk of the last byte is followed by another, or it ends where the content does
    obtain ⟨p, hp, hlast⟩ := mem_map.mp (hfst.symm ▸ size.div_mem_covering (le_sub_one_of_lt hlt)
      (sub_one_lt_of_lt hlt))
    obtain ⟨hin, hlength, -, hend'⟩ := hchunk p hp
    have hstop := lt_div_mul_add (a := srcEnd - 1) size.bytes_pos
    have hstart := (size.lt_count_iff _ _).mp (not_not.mp hcount ▸ hin)
    have hnext := size.lt_count_iff (p.1 + 1) plainLen
    rw [← hlast] at hstop
    rw [add_mul] at hnext
    simp only [ChunkSize.range] at hlength
    omega
  have hlen : (slice plain srcStart (srcEnd - srcStart)).length = srcEnd - srcStart := by
    rw [length_slice]
    omega
  -- the decoded chunks are those of the content, and their parts cover the wanted range
  rw [foldl_place hlong fun p hp => ⟨(of_mem_zip hp).1, (hchunk p hp).2.2.1, (hchunk p hp).2.1⟩, hfst]
  refine foldl_copy_eq ?_ (by rw [length_replicate, hlen]) ?_
  · intro p hp
    obtain ⟨i, hi, rfl⟩ := mem_map.mp hp
    rw [hlen]
    exact part_le hi
  · intro i hi
    rw [hlen] at hi
    obtain ⟨index, hindex, hpart⟩ := exists_part hlong hi
    exact ⟨_, mem_map_of_mem hindex, hpart⟩

/-- **A read returns the range of the content**, from whatever file, in every arm. -/
theorem readBody_eq {codec : Codec} {out : Bytes}
    (hdet : c.Determines expected plain) (hend : srcEnd ≤ plain.length)
    (h : c.readBody codec f off bodyLength expected srcStart srcEnd = .ok out) :
    out = slice plain srcStart (srcEnd - srcStart) := by
  cases codec with
  | zstdChunked => exact serveChunked_eq hdet hend h
  | none =>
    obtain ⟨stored, -, h⟩ := Run.exists_of_bind_ok h
    exact verifyAndSlice_eq hdet h
  | lz4 | zstd =>
    obtain ⟨stored, -, h⟩ := Run.exists_of_bind_ok h
    obtain ⟨plain', -, h⟩ := Run.exists_of_bind_ok h
    exact verifyAndSlice_eq hdet h

end ReadCodecs

end Elide
