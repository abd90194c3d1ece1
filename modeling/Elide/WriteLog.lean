import Elide.Lib.ByteReader
import Elide.Lib.Run
import Elide.Rewrite.Materialise

/-!
# The write log

The WAL file, byte for byte: a magic, then records. `appendData` and `appendZero` write one record
each and keep the log's size beside the file; `scan` reads the file back after a crash and stops at
a record that is cut short.

The operating system answers every write with the number of bytes it took or with an error, so an
append can fail with a prefix of its record in the file. The file is only ever written at its end,
where the descriptor's cursor is, and an error leaves both as they are. The log's own `size` counts
whole records: after such a *torn* append it is behind the file.

The compressor and the content hash are those of `Codecs`.

## Main results

* `WriteLog.offsets_right_iff_from`: every append of data returns the offset its payload has in
  the file exactly when none succeeds after a torn append.
* `WriteLog.recovers_of_nothingAfterTear`: when nothing is written behind a torn append, `scan`
  returns the records whose append returned, in order, and no other.
* `WriteLog.scan_of_cut`: a file cut at any byte keeps exactly its whole records.
-/

namespace Elide

open ByteReader List ByteReader.Reads

/-- A WAL file open for appending, and the size the log believes it has. -/
structure WriteLog where
  file : Bytes
  size : ℕ
  deriving DecidableEq, Repr

namespace WriteLog

/-- `ELIDWAL\x01` -/
def MAGIC : Bytes := [0x45, 0x4c, 0x49, 0x44, 0x57, 0x41, 0x4c, 0x01]

/-! ### Records -/

/-- The flag byte of a record. -/
abbrev WalFlags := UInt8

namespace WalFlags

/-- The payload is compressed. -/
def COMPRESSED : WalFlags := 0x01

/-- The record refers to a body elsewhere. -/
def DEDUP_REF : WalFlags := 0x02

/-- The record is of zeroes and has no payload. -/
def ZERO : WalFlags := 0x04

/-- Whether the bit is set. -/
def contains (flags bit : WalFlags) : Bool := flags &&& bit == bit

end WalFlags

/-- A record as `scan` returns it. -/
inductive LogRecord where
  | data (hash : Hash) (startLba lbaLength : ℕ) (flags : WalFlags) (bodyOffset : ℕ) (data : Bytes)
  | ref (hash : Hash) (startLba lbaLength : ℕ)
  | zero (startLba lbaLength : ℕ)
  deriving DecidableEq, Repr

/-- The bytes of a hash. -/
def hashBytes (hash : Hash) : Bytes := toBytes 32 hash.toNat

/-- A hash, of 32 bytes. -/
def readHash : ByteReader Hash := do
  let bs ← readBytes 32
  pure (BitVec.ofNat 256 (ofBytes bs))

variable (c : Codecs)

/-- What the hash of a payload is taken over. -/
def verifyAgainst (flags : WalFlags) (payload : Bytes) : Except IoError Bytes :=
  if flags.contains WalFlags.COMPRESSED then c.decode .lz4 payload else .ok payload

/-- Check a payload against the record's hash. -/
def verifyPayload (hash : Hash) (flags : WalFlags) (payload : Bytes) : ByteReader Unit :=
  match verifyAgainst c flags payload with
  | .error _ => fail (.invalidData "decompression failed")
  | .ok content =>
    if c.blake3 content = hash then pure () else fail (.invalidData "extent hash mismatch")

/-- Read a record and check it. -/
def parseRecord : ByteReader LogRecord := do
  let hash ← readHash
  let startLba ← readVarint
  let lbaLength ← readVarint32
  let flags ← readU8
  if WalFlags.contains flags WalFlags.DEDUP_REF then
    -- a thin reference, which no append writes any more
    pure (.ref hash startLba lbaLength)
  else if WalFlags.contains flags WalFlags.ZERO then
    pure (.zero startLba lbaLength)
  else do
    let dataLen ← readVarint32
    let bodyOffset ← position
    let payload ← readBytes dataLen
    verifyPayload c hash flags payload
    pure (.data hash startLba lbaLength flags bodyOffset payload)

/-- The loop of `scan`: the records from the cursor on, and the end of the last whole one. Every
record takes a byte, so as many turns as bytes are enough. -/
def scanRecords : ℕ → Cursor → Except Failure (List LogRecord × ℕ)
  | 0, cursor => .ok ([], cursor.pos)
  | n + 1, cursor =>
    if cursor.rest = [] then .ok ([], cursor.pos)
    else
      match parseRecord c cursor with
      | .ok (record, next) => do
        let (records, lastGood) ← scanRecords n next
        return (record :: records, lastGood)
      | .error .unexpectedEof => .ok ([], cursor.pos)
      | .error e => .error e

/-- The complete records of a file and the number of bytes they take; the caller's file is cut to
that number. -/
def scan (file : Bytes) : Except Failure (List LogRecord × ℕ) :=
  if file.take MAGIC.length = MAGIC then
    scanRecords c file.length ⟨MAGIC.length, file.drop MAGIC.length⟩
  else .error (.invalidData "bad write log magic")

/-- Reopen the log for appending, its file cut to the bytes that a scan found valid. -/
def reopen (file : Bytes) (size : ℕ) : WriteLog := ⟨file.take size, size⟩

/-! ### Writes -/

/-- What the operating system answers to the next writes; when the list is used up, it takes
everything. -/
abbrev Answers := List (Except IoError ℕ)

/-- `write_all`: the bytes that reach the file, and whether all of them did. -/
def writeAllBytes : Answers → Bytes → Bytes × Except IoError Unit
  | [], data => (data, .ok ())
  | answer :: answers, data =>
    if data = [] then ([], .ok ())
    else
      match answer with
      | .error e => ([], .error e)
      | .ok 0 => ([], .error "failed to write whole buffer")
      | .ok (n + 1) =>
        let rest := writeAllBytes answers (data.drop (n + 1))
        (data.take (n + 1) ++ rest.1, rest.2)

/-- `head` followed by `tail`, a `writev` at a time. -/
def writeAllVectored : Answers → Bytes → Bytes → Bytes × Except IoError Unit
  | [], head, tail => (head ++ tail, .ok ())
  | answer :: answers, head, tail =>
    if head = [] ∧ tail = [] then ([], .ok ())
    else
      match answer with
      | .error e => ([], .error e)
      | .ok 0 => ([], .error "write_vectored wrote zero bytes")
      | .ok (n + 1) =>
        let rest :=
          if head.length ≤ n + 1 then
            writeAllVectored answers [] (tail.drop (n + 1 - head.length))
          else writeAllVectored answers (head.drop (n + 1)) tail
        ((head ++ tail).take (n + 1) ++ rest.1, rest.2)

/-! ### Appends -/

/-- The arguments of `append_data`: integers of their widths, a payload whose length a record can
hold, no flag that marks another kind of record, and the hash of the content. -/
structure DataArgs where
  startLba : ℕ
  lbaLength : ℕ
  hash : Hash
  flags : WalFlags
  data : Bytes
  startLba_lt : startLba < 2 ^ 64
  lbaLength_lt : lbaLength < 2 ^ 32
  length_lt : data.length < 2 ^ 32
  not_ref : flags.contains WalFlags.DEDUP_REF = false
  not_zero : flags.contains WalFlags.ZERO = false
  verifies : ∃ content, verifyAgainst c flags data = .ok content ∧ c.blake3 content = hash

/-- The arguments of `append_zero`. -/
structure ZeroArgs where
  startLba : ℕ
  lbaLength : ℕ
  startLba_lt : startLba < 2 ^ 64
  lbaLength_lt : lbaLength < 2 ^ 32

variable {c}

/-- Bytes before the payload. -/
def DataArgs.header (a : DataArgs c) : Bytes :=
  hashBytes a.hash ++ (encodeVarint a.startLba ++ (encodeVarint a.lbaLength ++
    ([a.flags] ++ encodeVarint a.data.length)))

/-- The whole record of a zero. -/
def ZeroArgs.record (a : ZeroArgs) : Bytes :=
  hashBytes ZERO_HASH ++ (encodeVarint a.startLba ++ (encodeVarint a.lbaLength ++ [WalFlags.ZERO]))

/-- A fresh log. -/
def create : WriteLog := ⟨MAGIC, MAGIC.length⟩

/-- Append a data extent; on success, the offset of the payload as the log reckons it. -/
def appendData (log : WriteLog) (a : DataArgs c) (os : Answers) : Except IoError ℕ × WriteLog :=
  let bodyOffset := log.size + a.header.length
  match writeAllVectored os a.header a.data with
  | (written, .error e) => (.error e, { log with file := log.file ++ written })
  | (written, .ok ()) =>
    (.ok bodyOffset, ⟨log.file ++ written, log.size + (a.header.length + a.data.length)⟩)

/-- Append a zero extent. -/
def appendZero (log : WriteLog) (a : ZeroArgs) (os : Answers) : Except IoError Unit × WriteLog :=
  match writeAllBytes os a.record with
  | (written, .error e) => (.error e, { log with file := log.file ++ written })
  | (written, .ok ()) => (.ok (), ⟨log.file ++ written, log.size + a.record.length⟩)

/-- One append, with what the operating system answers to its writes. -/
inductive Call (c : Codecs) where
  | data (a : DataArgs c) (os : Answers)
  | zero (a : ZeroArgs) (os : Answers)

namespace Call

/-- The record of the append, whole. -/
def bytes : Call c → Bytes
  | data a _ => a.header ++ a.data
  | zero a _ => a.record

/-- The bytes that reach the file, and whether all of them did. -/
def outcome : Call c → Bytes × Except IoError Unit
  | data a os => writeAllVectored os a.header a.data
  | zero a os => writeAllBytes os a.record

/-- The append fails with some of its bytes in the file. -/
def Torn (call : Call c) : Prop := call.outcome.2.isOk = false ∧ call.outcome.1 ≠ []

/-- A data append that succeeds. -/
def storesData : Call c → Bool
  | call@(data ..) => call.outcome.2.isOk
  | zero .. => false

/-- The record of the append when it starts at `pos`. -/
def recordAt (pos : ℕ) : Call c → LogRecord
  | data a _ => .data a.hash a.startLba a.lbaLength a.flags (pos + a.header.length) a.data
  | zero a _ => .zero a.startLba a.lbaLength

end Call

/-- One append; on success, the record the caller goes on to use, at the offset it was given. -/
def append (log : WriteLog) : Call c → Except IoError LogRecord × WriteLog
  | .data a os =>
    let r := log.appendData a os
    (r.1.map fun offset => .data a.hash a.startLba a.lbaLength a.flags offset a.data, r.2)
  | .zero a os =>
    let r := log.appendZero a os
    (r.1.map fun _ => .zero a.startLba a.lbaLength, r.2)

/-- One append. -/
def step (log : WriteLog) (call : Call c) : WriteLog := (log.append call).2

/-- The records whose append returned, oldest first. -/
def acked : WriteLog → List (Call c) → List LogRecord
  | _, [] => []
  | log, call :: calls => (log.append call).1.toOption.toList ++ acked (log.step call) calls

/-! ### What a write leaves in the file -/

/-- All of `data` was written, or an error left a proper prefix. -/
def Writes (w : Bytes × Except IoError Unit) (data : Bytes) : Prop :=
  w = (data, .ok ()) ∨ ∃ p e, w = (p, .error e) ∧ p <+: data ∧ p ≠ data

theorem Writes.of_drop {w : Bytes × Except IoError Unit} {data : Bytes} {n : ℕ}
    (h : Writes w (data.drop n)) : Writes (data.take n ++ w.1, w.2) data := by
  rcases h with rfl | ⟨p, e, rfl, hp, hne⟩
  · exact .inl (by rw [take_append_drop])
  · refine .inr ⟨data.take n ++ p, e, rfl, ?_, ?_⟩
    · conv_rhs => rw [← take_append_drop n data]
      exact (prefix_append_right_inj _).mpr hp
    · intro heq
      have hall : data.take n ++ p = data.take n ++ data.drop n := by
        rw [heq, take_append_drop]
      exact hne (append_cancel_left hall)

variable {e : IoError}

theorem Writes.of_error {data : Bytes} (hne : data ≠ []) : Writes ([], .error e) data :=
  .inr ⟨[], e, rfl, nil_prefix, hne.symm⟩

theorem writes_writeAllBytes (os : Answers) (data : Bytes) :
    Writes (writeAllBytes os data) data := by
  induction os generalizing data with
  | nil => exact .inl rfl
  | cons answer answers ih =>
    by_cases hdata : data = []
    · subst hdata
      cases answer <;> exact .inl (by simp [writeAllBytes])
    · rcases answer with e | _ | n
      · rw [writeAllBytes, if_neg hdata]
        exact Writes.of_error hdata
      · rw [writeAllBytes, if_neg hdata]
        exact Writes.of_error hdata
      · rw [writeAllBytes, if_neg hdata]
        exact Writes.of_drop (ih _)

theorem writes_writeAllVectored (os : Answers) (head tail : Bytes) :
    Writes (writeAllVectored os head tail) (head ++ tail) := by
  induction os generalizing head tail with
  | nil => exact .inl rfl
  | cons answer answers ih =>
    by_cases hdata : head = [] ∧ tail = []
    · obtain ⟨rfl, rfl⟩ := hdata
      cases answer <;> exact .inl (by simp [writeAllVectored])
    · have hne : head ++ tail ≠ [] := fun h => hdata (append_eq_nil_iff.mp h)
      rcases answer with e | _ | n
      · rw [writeAllVectored, if_neg hdata]
        exact Writes.of_error hne
      · rw [writeAllVectored, if_neg hdata]
        exact Writes.of_error hne
      · rw [writeAllVectored, if_neg hdata]
        refine Writes.of_drop ?_
        rw [drop_append]
        split_ifs with hlen
        · rw [drop_eq_nil_of_le hlen]
          exact ih _ _
        · have hsub : n + 1 - head.length = 0 := by omega
          rw [hsub]
          exact ih _ _

theorem Call.writes_outcome (call : Call c) : Writes call.outcome call.bytes := by
  cases call with
  | data a os => exact writes_writeAllVectored os a.header a.data
  | zero a os => exact writes_writeAllBytes os a.record

/-- A record starts with the hash, so it has bytes. -/
theorem Call.bytes_ne_nil (call : Call c) : call.bytes ≠ [] := by
  intro h
  have hlen : 32 ≤ call.bytes.length := by
    cases call <;> simp only [Call.bytes, DataArgs.header, ZeroArgs.record, hashBytes,
      length_append, length_toBytes] <;> omega
  rw [h] at hlen
  exact absurd hlen (by decide)

variable {call : Call c}

/-- An append that succeeds advances file and size alike. -/
theorem append_of_ok (h : call.outcome = (call.bytes, .ok ())) (log : WriteLog) :
    log.append call = (.ok (call.recordAt log.size),
      ⟨log.file ++ call.bytes, log.size + call.bytes.length⟩) := by
  cases call with
  | data a os =>
    have hw : writeAllVectored os a.header a.data = (a.header ++ a.data, .ok ()) := h
    simp [append, appendData, hw, Call.recordAt, Call.bytes, Except.map]
  | zero a os =>
    have hw : writeAllBytes os a.record = (a.record, .ok ()) := h
    simp [append, appendZero, hw, Call.recordAt, Call.bytes, Except.map]

variable {p : Bytes}

/-- An append that fails leaves the size behind. -/
theorem append_of_error (h : call.outcome = (p, .error e)) (log : WriteLog) :
    log.append call = (.error e, ⟨log.file ++ p, log.size⟩) := by
  cases call with
  | data a os =>
    have hw : writeAllVectored os a.header a.data = (p, .error e) := h
    simp [append, appendData, hw, Except.map]
  | zero a os =>
    have hw : writeAllBytes os a.record = (p, .error e) := h
    simp [append, appendZero, hw, Except.map]

theorem step_of_ok (h : call.outcome = (call.bytes, .ok ())) (log : WriteLog) :
    log.step call = ⟨log.file ++ call.bytes, log.size + call.bytes.length⟩ := by
  rw [step, append_of_ok h]

theorem step_of_error (h : call.outcome = (p, .error e)) (log : WriteLog) :
    log.step call = ⟨log.file ++ p, log.size⟩ := by
  rw [step, append_of_error h]

/-! ### Reading a record back -/

theorem reads_hash (hash : Hash) (pos : ℕ) : ByteReader.Reads readHash pos (hashBytes hash) hash := by
  have hbytes := reads_bytes pos (hashBytes hash)
  refine bind_last hbytes ?_
  have hlt : hash.toNat < 256 ^ 32 := hash.isLt
  rw [hashBytes, ofBytes_toBytes hlt, BitVec.ofNat_toNat]
  exact pure _ _

theorem DataArgs.reads_verify (a : DataArgs c) (pos : ℕ) :
    ByteReader.Reads (verifyPayload c a.hash a.flags a.data) pos [] () := by
  obtain ⟨content, hcontent, hhash⟩ := a.verifies
  simp only [verifyPayload, hcontent, hhash]
  exact pure _ _

/-- **The record of an append is read back**, with its payload's offset counted from its start. -/
theorem Call.reads_record (call : Call c) (pos : ℕ) :
    ByteReader.Reads (parseRecord c) pos call.bytes (call.recordAt pos) := by
  cases call with
  | data a os =>
    simp only [Call.bytes, DataArgs.header, append_assoc]
    refine bind (reads_hash a.hash pos) ?_
    refine bind (reads_varint a.startLba_lt _) ?_
    refine bind (reads_varint32 a.lbaLength_lt _) ?_
    refine bind (reads_u8 _ a.flags) ?_
    simp only [a.not_ref, a.not_zero]
    refine bind (reads_varint32 a.length_lt _) ?_
    refine bind_nil (reads_position _) ?_
    refine bind_last (reads_bytes _ a.data) ?_
    refine bind_nil (a.reads_verify _) ?_
    rw [Call.recordAt, DataArgs.header]
    simp only [length_append, ← add_assoc]
    exact pure _ _
  | zero a os =>
    refine bind (reads_hash ZERO_HASH pos) ?_
    refine bind (reads_varint a.startLba_lt _) ?_
    refine bind (reads_varint32 a.lbaLength_lt _) ?_
    refine bind_last (reads_u8 _ WalFlags.ZERO) ?_
    exact pure _ _

/-! ### Runs of appends -/

/-- The offset a data append returns is the one its payload has in the file. -/
def StartsRight (log : WriteLog) : Call c → Prop
  | .data a os => ∀ offset, (log.appendData a os).1 = .ok offset →
      offset = log.file.length + a.header.length
  | .zero .. => True

/-- No data append succeeds behind a torn one. -/
def NoDataAfterTear (calls : List (Call c)) : Prop :=
  calls.Pairwise fun x y => x.Torn → y.storesData = false

/-- Nothing is written behind a torn append. -/
def NothingAfterTear (calls : List (Call c)) : Prop :=
  calls.Pairwise fun x y => x.Torn → y.outcome.1 = []

/-- A run on a fresh log in which the failed appends corrupt nothing. -/
structure Uncorrupted (calls : List (Call c)) : Prop where
  offsets : Run.Each step StartsRight create calls
  /-- What is read at a returned offset is the payload. -/
  payloads : ∀ {hash startLba lbaLength flags offset data},
    .data hash startLba lbaLength flags offset data ∈ acked create calls →
      ((calls.foldl step create).file.drop offset).take data.length = data
  scanned : ∃ lastGood, scan c (calls.foldl step create).file = .ok (acked create calls, lastGood)

theorem startsRight_iff (log : WriteLog) (call : Call c) :
    log.StartsRight call ↔ (call.storesData = true → log.size = log.file.length) := by
  cases call with
  | zero a os => simp [StartsRight, Call.storesData]
  | data a os =>
    rcases (Call.data a os).writes_outcome with h | ⟨p, e, h, -⟩
    · have hw : writeAllVectored os a.header a.data = (a.header ++ a.data, .ok ()) := h
      simp [StartsRight, appendData, hw, Call.storesData, Call.outcome, Except.toBool]
    · have hw : writeAllVectored os a.header a.data = (p, .error e) := h
      simp [StartsRight, appendData, hw, Call.storesData, Call.outcome, Except.toBool]

variable {log : WriteLog}

/-- A log that is behind its file stays behind. -/
theorem step_behind (h : log.size < log.file.length) (call : Call c) :
    (log.step call).size < (log.step call).file.length := by
  rcases call.writes_outcome with hw | ⟨p, e, hw, -⟩
  · rw [step_of_ok hw, length_append]
    exact Nat.add_lt_add_right h _
  · rw [step_of_error hw, length_append]
    exact Nat.lt_add_right _ h

theorem offsets_right_iff_of_behind (h : log.size < log.file.length) (calls : List (Call c)) :
    Run.Each step StartsRight log calls ↔ ∀ call ∈ calls, call.storesData = false := by
  induction calls generalizing log with
  | nil => exact iff_of_true trivial nofun
  | cons call calls ih =>
    have hfirst : log.StartsRight call ↔ call.storesData = false := by
      rw [startsRight_iff, ← Bool.not_eq_true]
      exact ⟨fun hs hd => absurd (hs hd) (Nat.ne_of_lt h), fun hs hd => absurd hd hs⟩
    rw [Run.Each, hfirst, ih (step_behind h call), forall_mem_cons]

theorem offsets_right_iff_from (h : log.size = log.file.length) (calls : List (Call c)) :
    Run.Each step StartsRight log calls ↔ NoDataAfterTear calls := by
  induction calls generalizing log with
  | nil => exact iff_of_true trivial List.Pairwise.nil
  | cons call calls ih =>
    have hfirst : log.StartsRight call := (startsRight_iff log call).mpr fun _ => h
    rw [Run.Each, NoDataAfterTear, pairwise_cons]
    by_cases htorn : call.Torn
    · -- from here on the log is behind, and every data append is off
      have hbehind : (log.step call).size < (log.step call).file.length := by
        rcases call.writes_outcome with hw | ⟨p, e, hw, -⟩
        · exact absurd htorn.1 (by rw [hw]; nofun)
        · have hp : 0 < p.length := length_pos_iff.mpr (by simpa [hw] using htorn.2)
          rw [step_of_error hw, length_append]
          exact h ▸ Nat.lt_add_of_pos_right hp
      rw [offsets_right_iff_of_behind hbehind]
      constructor
      · rintro ⟨-, hnone⟩
        exact ⟨fun y hy _ => hnone y hy, pairwise_of_forall_mem_list fun _ _ y hy _ => hnone y hy⟩
      · rintro ⟨hnone, -⟩
        exact ⟨hfirst, fun y hy => hnone y hy htorn⟩
    · have heven : (log.step call).size = (log.step call).file.length := by
        rcases call.writes_outcome with hw | ⟨p, e, hw, -⟩
        · rw [step_of_ok hw, length_append, h]
        · have hp : p = [] := by
            by_contra hp
            exact htorn ⟨by rw [hw]; rfl, by rw [hw]; exact hp⟩
          rw [step_of_error hw, hp, append_nil, h]
      rw [ih heven]
      exact ⟨fun hrest => ⟨fun _ _ ht => absurd ht htorn, hrest.2⟩, fun hrest => ⟨hfirst, hrest.2⟩⟩

/-! ### What a scan finds -/

theorem scanRecords_bytes {n pos lastGood : ℕ} {rest : Bytes} {records : List LogRecord}
    (h : scanRecords c n ⟨pos + call.bytes.length, rest⟩ = .ok (records, lastGood)) :
    scanRecords c (n + 1) ⟨pos, call.bytes ++ rest⟩ =
      .ok (call.recordAt pos :: records, lastGood) := by
  have hne : call.bytes ++ rest ≠ [] := fun hnil =>
    call.bytes_ne_nil (append_eq_nil_iff.mp hnil).1
  rw [scanRecords, if_neg hne, (call.reads_record pos).full rest]
  simp only [h]
  rfl

theorem scanRecords_torn {n pos : ℕ} (hp : p <+: call.bytes) (hne : p ≠ call.bytes) :
    scanRecords c n ⟨pos, p⟩ = .ok ([], pos) := by
  cases n with
  | zero => rfl
  | succ n =>
    rw [scanRecords]
    split_ifs with hnil
    · rfl
    · rw [(call.reads_record pos).short p hp hne]

variable {calls : List (Call c)}

/-- Appends that write nothing have failed. -/
theorem run_of_silent (h : ∀ call ∈ calls, call.outcome.1 = []) (log : WriteLog) :
    calls.foldl step log = log ∧ acked log calls = [] := by
  induction calls with
  | nil => exact ⟨rfl, rfl⟩
  | cons call calls ih =>
    obtain ⟨hcall, hrest⟩ := forall_mem_cons.mp h
    rcases call.writes_outcome with hw | ⟨p, e, hw, -⟩
    · exact absurd (by rwa [hw] at hcall) call.bytes_ne_nil
    · have hp : p = [] := by rwa [hw] at hcall
      have hstep : log.step call = log := by rw [step_of_error hw, hp, append_nil]
      rw [foldl_cons, acked, hstep, append_of_error hw]
      exact ih hrest

/-- From `log` on, the run adds `tail` to the file, and what was acknowledged is found in it. -/
structure Recovers (log : WriteLog) (calls : List (Call c)) (tail : Bytes) : Prop where
  file : (calls.foldl step log).file = log.file ++ tail
  scanned : ∀ n, tail.length ≤ n → ∃ lastGood,
    scanRecords c n ⟨log.file.length, tail⟩ = .ok (acked log calls, lastGood)
  payloads : ∀ {hash startLba lbaLength flags offset data},
    .data hash startLba lbaLength flags offset data ∈ acked log calls →
      ((log.file ++ tail).drop offset).take data.length = data

variable {tail : Bytes}

theorem Recovers.cons_ok (hsize : log.size = log.file.length)
    (hw : call.outcome = (call.bytes, .ok ())) (h : Recovers (log.step call) calls tail) :
    Recovers log (call :: calls) (call.bytes ++ tail) := by
  obtain ⟨hfile, hscan, hpay⟩ := h
  rw [step_of_ok hw] at hfile hscan hpay
  have hacked : acked log (call :: calls) = call.recordAt log.size ::
      acked ⟨log.file ++ call.bytes, log.size + call.bytes.length⟩ calls := by
    rw [acked, step_of_ok hw, append_of_ok hw]
    rfl
  refine ⟨?_, ?_, ?_⟩
  · rw [foldl_cons, step_of_ok hw, hfile, append_assoc]
  · intro n hn
    have hpos : 0 < call.bytes.length := length_pos_iff.mpr call.bytes_ne_nil
    rw [length_append] at hn
    obtain ⟨lastGood, hgood⟩ := hscan (n - 1) (by omega)
    rw [length_append] at hgood
    refine ⟨lastGood, ?_⟩
    have hfound := scanRecords_bytes hgood
    rwa [show n - 1 + 1 = n by omega, ← hsize, ← hacked, hsize] at hfound
  · intro hash startLba lbaLength flags offset data hmem
    rw [hacked, mem_cons] at hmem
    rcases hmem with hhere | hlater
    · cases call with
      | zero a os => cases hhere
      | data a os =>
        obtain ⟨-, -, -, -, rfl, rfl⟩ := LogRecord.data.inj hhere
        have hsplit : log.file ++ ((Call.data a os).bytes ++ tail) =
            (log.file ++ a.header) ++ (a.data ++ tail) := by
          simp [Call.bytes]
        rw [hsplit, hsize, ← length_append, drop_left, take_left]
    · have hread := hpay hlater
      rwa [append_assoc] at hread

/-- **When nothing is written behind a torn append, the scan finds what was acknowledged.** -/
theorem recovers_of_nothingAfterTear (hsize : log.size = log.file.length)
    (h : NothingAfterTear calls) : ∃ tail, Recovers log calls tail := by
  induction calls generalizing log with
  | nil =>
    refine ⟨[], (append_nil _).symm, fun n _ => ⟨log.file.length, ?_⟩, nofun⟩
    cases n <;> rfl
  | cons call calls ih =>
    obtain ⟨hbehind, hrest⟩ := pairwise_cons.mp h
    rcases call.writes_outcome with hw | ⟨p, e, hw, hp, hne⟩
    · have heven : (log.step call).size = (log.step call).file.length := by
        rw [step_of_ok hw, length_append, hsize]
      obtain ⟨tail, htail⟩ := ih heven hrest
      exact ⟨_, htail.cons_ok hsize hw⟩
    · have hacked : acked log (call :: calls) = acked (log.step call) calls := by
        rw [acked, append_of_error hw]
        rfl
      by_cases hnil : p = []
      · -- a failure that wrote nothing is as if it had not been
        have hstep : log.step call = log := by rw [step_of_error hw, hnil, append_nil]
        rw [hstep] at hacked
        obtain ⟨tail, hfile, hscan, hpay⟩ := ih hsize hrest
        refine ⟨tail, by rw [foldl_cons, hstep, hfile], ?_, ?_⟩
        · rwa [hacked]
        · rwa [hacked]
      · have htorn : call.Torn := ⟨by rw [hw]; rfl, by rw [hw]; exact hnil⟩
        obtain ⟨hlast, hnone⟩ := run_of_silent (fun y hy => hbehind y hy htorn) (log.step call)
        rw [hnone] at hacked
        refine ⟨p, ?_, fun n _ => ⟨log.file.length, ?_⟩, ?_⟩
        · rw [foldl_cons, hlast, step_of_error hw]
        · rw [hacked]
          exact scanRecords_torn hp hne
        · rw [hacked]
          nofun

theorem uncorrupted_of_nothingAfterTear (h : NothingAfterTear calls) : Uncorrupted calls := by
  have hdata : NoDataAfterTear calls := h.imp fun {x y} hxy ht => by
    have hsilent := hxy ht
    cases y with
    | zero a os => rfl
    | data a os =>
      rcases (Call.data a os).writes_outcome with hw | ⟨p, e, hw, -⟩
      · rw [hw] at hsilent
        exact absurd hsilent (Call.data a os).bytes_ne_nil
      · rw [Call.storesData, hw]
        rfl
  have hfresh : create.size = create.file.length := rfl
  obtain ⟨tail, hfile, hscan, hpay⟩ := recovers_of_nothingAfterTear hfresh h
  refine ⟨(offsets_right_iff_from rfl calls).mpr hdata, ?_, ?_⟩
  · rwa [hfile]
  · obtain ⟨lastGood, hgood⟩ := hscan (MAGIC ++ tail).length (by simp)
    refine ⟨lastGood, ?_⟩
    rw [hfile]
    exact hgood

/-- **Failed appends corrupt nothing as long as nothing is written behind a torn one.** The offsets
that data appends return are right exactly when none of them succeeds behind a torn append. -/
theorem appends_uncorrupted (calls : List (Call c)) :
    (Run.Each step StartsRight create calls ↔ NoDataAfterTear calls) ∧
      (NothingAfterTear calls → Uncorrupted calls) :=
  ⟨offsets_right_iff_from rfl calls, uncorrupted_of_nothingAfterTear⟩

/-! ### A file that ends anywhere

Here every append returned, and the file is cut afterwards, at any byte. -/

/-- The appends all return. -/
def AllReturn (calls : List (Call c)) : Prop := ∀ call ∈ calls, call.outcome.2.isOk = true

theorem AllReturn.outcome (h : AllReturn (call :: calls)) :
    call.outcome = (call.bytes, .ok ()) := by
  rcases call.writes_outcome with hw | ⟨p, e, hw, -⟩
  · exact hw
  · exact absurd (h call mem_cons_self) (by rw [hw]; nofun)

theorem AllReturn.foldl_step (h : AllReturn calls) (log : WriteLog) :
    calls.foldl step log = ⟨log.file ++ calls.flatMap Call.bytes,
      log.size + (calls.flatMap Call.bytes).length⟩ := by
  induction calls generalizing log with
  | nil => simp
  | cons call calls ih =>
    rw [foldl_cons, ih (forall_mem_cons.mp h).2, step_of_ok h.outcome]
    simp [Nat.add_assoc]

theorem acked_append (log : WriteLog) (xs ys : List (Call c)) :
    acked log (xs ++ ys) = acked log xs ++ acked (xs.foldl step log) ys := by
  induction xs generalizing log with
  | nil => rfl
  | cons call xs ih => rw [cons_append, acked, acked, ih, append_assoc, foldl_cons]

theorem AllReturn.scanRecords {m : ℕ} (h : AllReturn calls) (log : WriteLog)
    (htail : ∀ k pos, scanRecords c k ⟨pos, tail⟩ = .ok ([], pos))
    (hm : (calls.flatMap Call.bytes).length ≤ m) :
    scanRecords c m ⟨log.size, calls.flatMap Call.bytes ++ tail⟩ =
      .ok (acked log calls, (calls.foldl step log).size) := by
  induction calls generalizing log m with
  | nil => exact htail m log.size
  | cons call calls ih =>
    have hpos : 0 < call.bytes.length := length_pos_iff.mpr call.bytes_ne_nil
    rw [flatMap_cons, length_append] at hm
    obtain ⟨m, rfl⟩ : ∃ k, m = k + 1 := ⟨m - 1, by omega⟩
    have hfuel : (calls.flatMap Call.bytes).length ≤ m := by omega
    have hscan := ih (forall_mem_cons.mp h).2 (log.step call) hfuel
    rw [step_of_ok h.outcome] at hscan
    rw [flatMap_cons, append_assoc, scanRecords_bytes hscan, acked,
      append_of_ok h.outcome, foldl_cons, step_of_ok h.outcome]
    rfl

theorem AllReturn.scan (h : AllReturn calls)
    (htail : ∀ k pos, WriteLog.scanRecords c k ⟨pos, tail⟩ = .ok ([], pos)) :
    WriteLog.scan c ((calls.foldl step create).file ++ tail) =
      .ok (acked create calls, (calls.foldl step create).size) := by
  rw [show (calls.foldl step create).file = MAGIC ++ calls.flatMap Call.bytes by
      rw [h.foldl_step]; rfl,
    append_assoc, WriteLog.scan, if_pos take_left]
  refine h.scanRecords create htail ?_
  rw [length_append, length_append]
  omega

/-- The appends whose records lie wholly in the first `n` bytes, and the others. -/
theorem exists_cut (calls : List (Call c)) (n : ℕ) :
    ∃ whole rest, calls = whole ++ rest ∧ (whole.flatMap Call.bytes).length ≤ n ∧
      ∀ call ∈ rest.head?, n < (whole.flatMap Call.bytes).length + call.bytes.length := by
  induction calls generalizing n with
  | nil => exact ⟨[], [], rfl, Nat.zero_le n, nofun⟩
  | cons call calls ih =>
    by_cases hlen : call.bytes.length ≤ n
    · obtain ⟨whole, rest, rfl, hwhole, hrest⟩ := ih (n - call.bytes.length)
      refine ⟨call :: whole, rest, rfl, ?_, fun next hnext => ?_⟩
      · rw [flatMap_cons, length_append]
        omega
      · have hbeyond := hrest next hnext
        rw [flatMap_cons, length_append]
        omega
    · refine ⟨[], call :: calls, rfl, Nat.zero_le n, fun next hnext => ?_⟩
      obtain rfl : call = next := Option.some.inj hnext
      simpa using hlen

/-- What is left of the records behind the cut is no whole record. -/
theorem scanRecords_cut {n : ℕ} (h : ∀ call ∈ calls.head?, n < call.bytes.length) (k pos : ℕ) :
    scanRecords c k ⟨pos, (calls.flatMap Call.bytes).take n⟩ = .ok ([], pos) := by
  cases calls with
  | nil =>
    rw [flatMap_nil, take_nil]
    cases k <;> rfl
  | cons call calls =>
    have hshort : n < call.bytes.length := h call rfl
    have hne : call.bytes.take n ≠ call.bytes := by
      intro heq
      have hlength := congrArg List.length heq
      rw [length_take] at hlength
      omega
    rw [flatMap_cons, take_append_of_le_length hshort.le]
    exact scanRecords_torn ⟨call.bytes.drop n, take_append_drop n call.bytes⟩ hne

/-- **The log survives being cut at any byte.** Of a file of appends that all returned, cut behind
its magic, a scan finds exactly the records that lie wholly in what is left, each as it was
appended, and the number of bytes up to the end of the last; reopened there, the log takes further
appends, and a later scan finds them behind the ones that were left. -/
theorem scan_of_cut (h : AllReturn calls) {n : ℕ} (hn : MAGIC.length ≤ n) :
    ∃ whole rest log file, calls = whole ++ rest ∧ log = whole.foldl step create ∧
      file = (calls.foldl step create).file.take n ∧
      (log.size ≤ n ∧ ∀ call ∈ rest.head?, n < log.size + call.bytes.length) ∧
      scan c file = .ok (acked create whole, log.size) ∧ reopen file log.size = log ∧
      ∀ more : List (Call c), AllReturn more →
        scan c (more.foldl step (reopen file log.size)).file =
          .ok (acked create whole ++ acked log more, (more.foldl step log).size) := by
  obtain ⟨whole, rest, rfl, hwhole, hrest⟩ := exists_cut calls (n - MAGIC.length)
  have hreturned : AllReturn whole := (forall_mem_append.mp h).1
  have hlog := hreturned.foldl_step create
  have hsize : (whole.foldl step create).size = (whole.foldl step create).file.length := by
    rw [hlog, length_append]
    rfl
  have hend : (whole.foldl step create).size =
      MAGIC.length + (whole.flatMap Call.bytes).length := by
    rw [hlog]
    rfl
  -- the whole records, and what the cut left of the rest
  have hfile : ((whole ++ rest).foldl step create).file.take n = (whole.foldl step create).file ++
        (rest.flatMap Call.bytes).take (n - (whole.foldl step create).size) := by
    rw [h.foldl_step, flatMap_append, ← append_assoc, hsize, hlog, take_append,
      take_of_length_le (by rw [length_append]; simp only [create]; omega)]
  have hreopen : reopen (((whole ++ rest).foldl step create).file.take n)
      (whole.foldl step create).size = whole.foldl step create := by
    rw [hfile, reopen, hsize, take_left]
    exact congrArg (WriteLog.mk _) hsize.symm
  refine ⟨whole, rest, _, _, rfl, rfl, rfl, ⟨by omega, fun call hcall => ?_⟩, ?_, hreopen, ?_⟩
  · have hbeyond := hrest call hcall
    omega
  · rw [hfile]
    exact hreturned.scan (scanRecords_cut fun call hcall => by
      have hbeyond := hrest call hcall
      omega)
  · intro more hmore
    have hboth : AllReturn (whole ++ more) := forall_mem_append.mpr ⟨hreturned, hmore⟩
    have hscan := @AllReturn.scan _ _ [] hboth fun k pos => by cases k <;> rfl
    rw [append_nil, acked_append, foldl_append] at hscan
    rwa [hreopen]

/-! ### A torn append and the one after it -/

namespace TornAppend

/-- A hash that says nothing and codecs that keep the bytes. -/
def codecs : Codecs where
  blake3 _ := 0
  storedHash _ := 0
  decode _ bs := .ok bs
  compressBody _ _ := .ok none
  applyDelta bs _ := .ok bs

/-- One block of one byte. -/
def block : DataArgs codecs where
  startLba := 0
  lbaLength := 1
  hash := 0
  flags := 0
  data := [7]
  startLba_lt := by decide
  lbaLength_lt := by decide
  length_lt := by decide
  not_ref := by decide
  not_zero := by decide
  verifies := ⟨[7], rfl, rfl⟩

/-- The disk takes one byte and is then full. -/
def torn : Call codecs := .data block [.ok 1, .error "No space left on device"]

/-- The same write again, with room for it. -/
def retried : Call codecs := .data block []

end TornAppend

open TornAppend in
/-- A write, and a torn one at the end of the log: the scan drops the torn one. -/
theorem torn_tail_uncorrupted : NothingAfterTear [retried, torn] ∧ Uncorrupted [retried, torn] := by
  have hwritten : retried.outcome.2.isOk = true := rfl
  have h : NothingAfterTear [retried, torn] := by
    refine pairwise_pair.mpr fun ht => ?_
    exact absurd ht.1 (by rw [hwritten]; decide)
  exact ⟨h, (appends_uncorrupted [retried, torn]).2 h⟩

open TornAppend in
/-- Two writes, and the file cut in the hash of the second one's record: the first one's record is
found, and the file is cut to its end. -/
theorem scan_of_cut_twice : AllReturn [retried, retried] ∧ MAGIC.length ≤ 52 ∧
    scan codecs (([retried, retried].foldl step create).file.take 52) =
      .ok ([retried.recordAt MAGIC.length], 45) := by
  have hwritten : retried.outcome.2.isOk = true := rfl
  have h : AllReturn [retried, retried] := by simp [AllReturn, hwritten]
  have hn : MAGIC.length ≤ 52 := by decide
  obtain ⟨whole, rest, _, _, hsplit, rfl, rfl, ⟨hle, hnext⟩, hscan, -⟩ := scan_of_cut h hn
  refine ⟨h, hn, ?_⟩
  rcases whole with _ | ⟨a, _ | ⟨b, whole⟩⟩
  · subst hsplit
    exact absurd (hnext retried rfl) (by decide)
  · obtain rfl := (cons.inj hsplit).1
    exact hscan
  · simp only [cons_append, cons.injEq, nil_eq, append_eq_nil_iff] at hsplit
    obtain ⟨rfl, rfl, rfl, -⟩ := hsplit
    exact absurd hle (by decide)

open TornAppend in
/-- The guest repeats the write that failed, and it succeeds: its offset is the one of the byte
before the payload. -/
theorem append_after_torn_misplaced : ¬ Uncorrupted [torn, retried] := by
  intro h
  have hoffset : (step create torn).size + block.header.length =
      (step create torn).file.length + block.header.length := h.offsets.2.1 _ rfl
  exact absurd hoffset (by decide)

end WriteLog

end Elide
