import Elide.MapLayers.PromoteOrder
import Elide.Rewrite.Lossless
import Elide.Volume.GuestTraffic

/-!
# The no-op skip of the write path

A write whose bytes the volume already holds at its LBAs is dropped. The check asks one layer for
one entry, although the range can be cut at the boundaries of the journal window and be covered in
part by any number of frozen layers. It is sound because the layer it asks is the topmost that
covers any of the range (`MapLayers.Inv.read_of_hasFullMatch`), and because the runs of a write are
apart, so that none changes what another reads (`Volume.commitRuns_spec`).

The skip does not look for a body: the claim that matches has one, as every claim has. A run that is
committed leaves its own, in the journal tier or in the DATA map according to the window.

## Main results

* `Volume.commitRuns_spec`: what a list of runs that follow one another does to the volume.
* `Volume.commitOrSkip_sound`: a write of any length, over any layers and any window, is read back
  where it went and nowhere else; what it skips was there, and what it commits is found.
* `SplitWrite.commitOrSkip_sound_split`: a write cut in three, of which a frozen layer holds one.
-/

namespace Elide

open JournalRanges List Except LbaMap

variable {start len x : ℕ} {hash : Hash}

theorem LbaMap.Wf.lookup_of_hasFullMatch {m : LbaMap} (hm : m.Wf)
    (h : m.hasFullMatch start len hash = true) (hx : start ≤ x ∧ x < start + len) :
    m.lookup x = some (hash, x - start) := by
  obtain ⟨e, he, hmatch⟩ := Option.any_eq_true _ _ |>.mp h
  obtain ⟨⟨rfl, hoff⟩, rfl⟩ : (e.lbaLength = len ∧ e.payloadBlockOffset = 0) ∧ e.hash = hash := by
    simpa using hmatch
  rw [lookup_eq_map, hm.lookupWithClaimant_of_coveredBy ⟨he, hx⟩]
  simp [MapEntry.valueAt, hoff]

namespace MapLayers

variable {l : MapLayers}

/-- **A full match speaks for the whole range**: no layer above the one it is found in covers any
of it. -/
theorem Inv.read_of_hasFullMatch (hl : l.Inv) (h : l.hasFullMatch start len hash = true)
    (hx : start ≤ x ∧ x < start + len) : l.read x = some (hash, x - start) := by
  have hupper : ∀ m ∈ l.upper, m.lbamap.Inv := by
    simpa [upper] using ⟨hl.delta, hl.frozen⟩
  rw [hasFullMatch] at h
  change layeredRead ((l.upper ++ [l.base]).map Maps.lbamap) x = _
  generalize l.upper = upper at h hupper ⊢
  induction upper with
  | nil =>
    rw [nil_append, map_singleton, layeredRead_cons, hl.base.wf.lookup_of_hasFullMatch h hx]
    rfl
  | cons m ms ih =>
    obtain ⟨hm, hms⟩ := forall_mem_cons.mp hupper
    rw [cons_append, map_cons, layeredRead_cons]
    cases hext : m.lbamap.extentsInRange start (start + len) with
    | cons e es =>
      rw [find?_cons_of_pos (by rw [hext]; rfl)] at h
      rw [hm.wf.lookup_of_hasFullMatch h hx]
      rfl
    | nil =>
      -- the layer covers nothing of the range
      have hbare := (hm.wf.reads_extentsInRange (by omega : start ≤ start + len)).readAt_eq x hx.1 hx.2
      rw [hext] at hbare
      rw [find?_cons_of_neg (by rw [hext]; nofun)] at h
      rw [lookup_eq_map, ← hbare]
      exact ih h hms

end MapLayers

/-- The write path's surroundings. -/
structure WriteEnv where
  blake3 : Bytes → Hash
  maybeCompress : Bytes → Option Bytes
  /-- The WAL's answer to an append: the offset of the payload. -/
  appendData : Volume → ℕ → Bytes → Except IoError ℕ

namespace Volume

variable (env : WriteEnv)

/-- `commit_or_skip` of a run that crosses no boundary. -/
def commitRun (v : Volume) (lba : ℕ) (data : Bytes) : Except IoError (Bool × Volume) :=
  let lbaLength := data.length / BLOCK_BYTES
  let hash := env.blake3 data
  if v.maps.hasFullMatch lba lbaLength hash then .ok (false, v)
  else
    let compressed := env.maybeCompress data
    let stored := compressed.getD data
    let codec := bif compressed.isSome then .lz4 else .none
    match env.appendData v lba stored with
    | .ok bodyOffset => .ok (true, v.writeCommit lba lbaLength hash codec stored.length bodyOffset)
    | .error e => .error e

variable (lba : ℕ) (data : Bytes)

/-- The bytes of a run of the write of `data` at `lba`. -/
def runBytes (run : ℕ × ℕ) : Bytes := sliceBlocks data (run.1 - lba) run.2

/-- Commit the runs in order; whether any was written. -/
def commitRuns : List (ℕ × ℕ) → Volume → Except IoError (Bool × Volume)
  | [], v => .ok (false, v)
  | run :: runs, v =>
    match v.commitRun env run.1 (runBytes lba data run) with
    | .ok (did, v) => (commitRuns runs v).map fun (committed, v) => (did || committed, v)
    | .error e => .error e

/-- Whether anything was committed, and the volume. No run of the split crosses a boundary
(`JournalRanges.follow_splitAtBoundaries`), so the call for each goes on to the skip check. -/
def commitOrSkip (v : Volume) : Except IoError (Bool × Volume) :=
  let lbaLength := data.length / BLOCK_BYTES
  if v.journal.crossesBoundary lba lbaLength then
    commitRuns env lba data (v.journal.splitAtBoundaries lba lbaLength) v
  else v.commitRun env lba data

/-- The runs of a write. -/
def runs (v : Volume) (n : ℕ) : List (ℕ × ℕ) :=
  if v.journal.crossesBoundary lba n then v.journal.splitAtBoundaries lba n else [(lba, n)]

/-- The blocks of a run read its bytes. -/
def Holds (v : Volume) (run : ℕ × ℕ) : Prop := ∀ x, run.1 ≤ x → x < run.1 + run.2 →
  v.maps.read x = some (env.blake3 (runBytes lba data run), x - run.1)

variable {env lba data} {v v' : Volume} {did : Bool} {n : ℕ}

/-- A run is pushed, or the volume is as it was; either way its blocks now read it. -/
theorem commitRun_spec (hv : v.maps.Inv) (hlen : data.length / BLOCK_BYTES = n) (hn : 0 < n)
    (h : v.commitRun env lba data = .ok (did, v')) : v'.maps.Inv ∧ (∀ x, v'.maps.read x =
        if lba ≤ x ∧ x < lba + n then some (env.blake3 data, x - lba) else v.maps.read x) ∧
      v.maps.Later v'.maps ∧ (v.maps.ClaimsResolve → v'.maps.ClaimsResolve) ∧ v'.wal = v.wal ∧
      (v' = v ∨ ∃ w, v'.pending = v.pending ++ [w] ∧ w.entry.startLba = lba ∧
        w.entry.lbaLength = n ∧ v'.maps.findsBody v.wal w.entry.hash = true) := by
  simp only [commitRun, hlen] at h
  split_ifs at h with hmatch
  · obtain ⟨-, rfl⟩ := Prod.mk.inj (ok.inj h)
    refine ⟨hv, fun x => ?_, .refl _, id, rfl, .inl rfl⟩
    split_ifs with hx
    · exact hv.read_of_hasFullMatch hmatch hx
    · rfl
  · split at h
    · obtain ⟨-, rfl⟩ := Prod.mk.inj (ok.inj h)
      exact ⟨⟨hv.base, hv.frozen, hv.delta.insertInner hn 0 _ v.wal⟩,
        hv.read_deltaInsert hn _ v.wal, later_writeCommit hv.delta hn _ _ _ _ _,
        claimsResolve_writeCommit hv.delta hn _ _ _ _ _, rfl,
        .inr ⟨_, rfl, rfl, rfl, findsBody_writeCommit _ _ _ _ _ _ _⟩⟩
    · cases h

/-- **The runs of a write, one after the other.** None changes what another reads, so a run for
which nothing is pushed was held before the first. -/
theorem commitRuns_spec {runs : List (ℕ × ℕ)} {lo hi : ℕ} (hruns : Follow hi lo runs)
    (hlen : ∀ run ∈ runs, (runBytes lba data run).length / BLOCK_BYTES = run.2) (hv : v.maps.Inv)
    (h : commitRuns env lba data runs v = .ok (did, v')) :
    (∀ x, x < lo ∨ hi ≤ x → v'.maps.read x = v.maps.read x) ∧
      (∀ run ∈ runs, v'.Holds env lba data run) ∧ v.maps.Later v'.maps ∧
      (v.maps.ClaimsResolve → v'.maps.ClaimsResolve) ∧ v'.wal = v.wal ∧
      ∃ ws, v'.pending = v.pending ++ ws ∧ ∀ run ∈ runs, v.Holds env lba data run ∨
        ∃ w ∈ ws, w.entry.startLba = run.1 ∧ w.entry.lbaLength = run.2 ∧
          v'.maps.findsBody v.wal w.entry.hash = true := by
  induction runs generalizing v lo did with
  | nil =>
    obtain ⟨-, rfl⟩ := Prod.mk.inj (ok.inj h)
    exact ⟨fun _ _ => rfl, nofun, .refl _, id, rfl, [], (append_nil _).symm, nofun⟩
  | cons run runs ih =>
    obtain ⟨rfl, hpos, hrest⟩ := hruns
    obtain ⟨hhere, hlen⟩ := forall_mem_cons.mp hlen
    obtain ⟨hle, hin⟩ := hrest.bounds
    rw [commitRuns] at h
    split at h
    · rename_i did₁ v₁ hrun
      obtain ⟨hv₁, hread₁, hlater₁, hres₁, hwal₁, hpush⟩ := commitRun_spec hv hhere hpos hrun
      obtain ⟨r, hmore, h⟩ := Run.exists_of_bind_ok h
      obtain ⟨-, rfl⟩ := Prod.mk.inj (ok.inj h)
      obtain ⟨hout, hholds, hlater, hres, hwal, ws, hws, hskip⟩ := ih hrest hlen hv₁ hmore
      rw [hwal₁] at hskip
      have hapart : ∀ x, x < run.1 ∨ run.1 + run.2 ≤ x → v₁.maps.read x = v.maps.read x :=
        fun x hx => (hread₁ x).trans (if_neg (by omega))
      have hfirst : v₁.Holds env lba data run := fun x h1 h2 => (hread₁ x).trans (if_pos ⟨h1, h2⟩)
      have hback : ∀ r ∈ runs, v₁.Holds env lba data r → v.Holds env lba data r :=
        fun r hr hh x h1 h2 => by
          have := hin r hr
          rw [← hapart x (by omega), hh x h1 h2]
      refine ⟨fun x hx => ?_, forall_mem_cons.mpr ⟨fun x h1 h2 => ?_, hholds⟩, hlater₁.trans hlater,
        hres ∘ hres₁, hwal.trans hwal₁, ?_⟩
      · rw [hout x (by omega), hapart x (by omega)]
      · rw [hout x (by omega), hfirst x h1 h2]
      · rcases hpush with rfl | ⟨w, hw, hstart, hlength, hfinds⟩
        · exact ⟨ws, hws, forall_mem_cons.mpr ⟨.inl hfirst, hskip⟩⟩
        · refine ⟨w :: ws, by rw [hws, hw, append_assoc]; rfl, forall_mem_cons.mpr
            ⟨.inr ⟨w, mem_cons_self, hstart, hlength, hlater.findsBody hfinds⟩,
              fun r hr => (hskip r hr).imp (hback r hr) ?_⟩⟩
          rintro ⟨w', hw', h'⟩
          exact ⟨w', mem_cons_of_mem _ hw', h'⟩
    · cases h

/-- The block that a read of `x` delivers. -/
def readBlock (plaintext : Hash → Bytes) (v : Volume) (x : ℕ) : Option Bytes :=
  (v.maps.read x).map fun r => claimedBlock plaintext r.1 r.2

/-- Equality of hashes means equality of bytes where `bytes` are concerned: what is found under
their hash are these bytes. No bytes have the hash that stands for zeroes. -/
structure NoCollision (blake3 : Bytes → Hash) (plaintext : Hash → Bytes) (bytes : Bytes) : Prop where
  hashed : blake3 (plaintext (blake3 bytes)) = blake3 bytes
  eq : ∀ other, blake3 other = blake3 bytes → other = bytes
  not_zero : blake3 bytes ≠ ZERO_HASH

variable {plaintext : Hash → Bytes}

theorem Holds.readBlock_eq {run : ℕ × ℕ} (h : v.Holds env lba data run)
    (hrun : NoCollision env.blake3 plaintext (runBytes lba data run)) (hle : lba ≤ run.1)
    {x : ℕ} (h1 : run.1 ≤ x) (h2 : x < run.1 + run.2) :
    v.readBlock plaintext x = some (sliceBlocks data (x - lba) 1) := by
  rw [readBlock, h x h1 h2, Option.map_some, claimedBlock, if_neg hrun.not_zero,
    hrun.eq _ hrun.hashed, runBytes, sliceBlocks_sliceBlocks (by omega),
    show run.1 - lba + (x - run.1) = x - lba by omega]

theorem runs_spec (lba : ℕ) (v : Volume) (hn : 0 < n) : Follow (lba + n) lba (v.runs lba n) ∧
    ∀ run ∈ v.runs lba n, v.journal.crossesBoundary run.1 run.2 = false := by
  rw [runs]
  split_ifs with hcross
  · exact v.journal.follow_splitAtBoundaries lba hn
  · exact ⟨⟨rfl, hn, rfl⟩, forall_mem_singleton.mpr (Bool.eq_false_iff.mpr hcross)⟩

theorem runBytes_whole (hlen : data.length = n * BLOCK_BYTES) : runBytes lba data (lba, n) = data := by
  rw [runBytes, sliceBlocks, Nat.sub_self, Nat.zero_mul, drop_zero, ← hlen, take_length]

theorem commitOrSkip_eq (hlen : data.length = n * BLOCK_BYTES) :
    commitOrSkip env lba data v = commitRuns env lba data (v.runs lba n) v := by
  have hdiv : data.length / BLOCK_BYTES = n := hlen ▸ Nat.mul_div_cancel n (by decide)
  rw [commitOrSkip, runs, hdiv]
  split_ifs
  · rfl
  · rw [commitRuns, runBytes_whole hlen]
    cases v.commitRun env lba data with
    | error e => rfl
    | ok r => exact congrArg (fun b => ok (b, r.2)) (Bool.or_false r.1).symm

/-- **The no-op skip is sound.** A write is committed in runs that cross no boundary of the journal
window. Each run is pushed, and its hash then has a body, or its blocks already read the written
bytes. Afterwards every block of the write reads what was written, every other block reads as before,
and if every claim had a body then every claim has one. -/
theorem commitOrSkip_sound (hn : 0 < n) (hlen : data.length = n * BLOCK_BYTES)
    (hruns : ∀ run ∈ v.runs lba n, NoCollision env.blake3 plaintext (runBytes lba data run))
    (hv : v.maps.Inv) (h : commitOrSkip env lba data v = .ok (did, v')) :
    (∀ x, lba ≤ x → x < lba + n → v'.readBlock plaintext x = some (sliceBlocks data (x - lba) 1)) ∧
    (∀ x, x < lba ∨ lba + n ≤ x → v'.maps.read x = v.maps.read x) ∧
    (v.maps.ClaimsResolve → v'.maps.ClaimsResolve) ∧
    ∃ ws, v'.pending = v.pending ++ ws ∧ ∀ run ∈ v.runs lba n,
      v.journal.crossesBoundary run.1 run.2 = false ∧
      ((∀ x, run.1 ≤ x → x < run.1 + run.2 →
          v.readBlock plaintext x = some (sliceBlocks data (x - lba) 1)) ∨
        ∃ w ∈ ws, w.entry.startLba = run.1 ∧ w.entry.lbaLength = run.2 ∧
          v'.maps.findsBody v'.wal w.entry.hash = true) := by
  obtain ⟨hfollow, hcross⟩ := v.runs_spec lba hn
  have hlens : ∀ run ∈ v.runs lba n, (runBytes lba data run).length / BLOCK_BYTES = run.2 := by
    intro run hrun
    have hin := hfollow.bounds.2 run hrun
    have hroom : run.1 - lba + run.2 ≤ n := by omega
    rw [runBytes, sliceBlocks, length_take, length_drop, hlen,
      Nat.min_eq_left (blockBytes_le hroom), Nat.mul_div_cancel _ (by decide)]
  rw [commitOrSkip_eq hlen] at h
  obtain ⟨hout, hholds, -, hres, hwal, ws, hws, hskip⟩ := commitRuns_spec hfollow hlens hv h
  rw [← hwal] at hskip
  have hreads : ∀ {u : Volume}, ∀ run ∈ v.runs lba n, u.Holds env lba data run → ∀ x, run.1 ≤ x →
      x < run.1 + run.2 → u.readBlock plaintext x = some (sliceBlocks data (x - lba) 1) :=
    fun run hrun hheld _ => hheld.readBlock_eq (hruns run hrun) (hfollow.bounds.2 run hrun).1
  refine ⟨fun x h1 h2 => ?_, hout, hres, ws, hws, fun run hrun =>
    ⟨hcross run hrun, (hskip run hrun).imp_left (hreads run hrun)⟩⟩
  obtain ⟨run, hrun, hx1, hx2⟩ := hfollow.exists_mem h1 h2
  exact hreads run hrun (hholds run hrun) x hx1 hx2

end Volume

/-! ### A write cut in three -/

namespace SplitWrite

open Volume

/-- A block of one byte. -/
def block (b : UInt8) : Bytes := replicate BLOCK_BYTES b

/-- Three blocks, for 4, 5 and 6. -/
def data : Bytes := block 1 ++ (block 2 ++ block 3)

/-- An environment that tells three blocks apart. -/
def env : WriteEnv where
  blake3 b := if b = block 1 then 1 else if b = block 2 then 2 else if b = block 3 then 3 else 4
  maybeCompress _ := none
  appendData _ _ _ := .ok 0

/-- What the hashes stand for. -/
def plaintext (h : Hash) : Bytes := if h = 1 then block 1 else if h = 2 then block 2 else block 3

/-- Block 5 is the journal window. A frozen layer holds block 4 as the write has it, and block 6
otherwise. -/
def volume : Volume where
  maps :=
    { MapLayers.new .empty with
      frozen := [⟨2, ⟨(LbaMap.new.insertInner 4 1 0 1 2).insertInner 6 1 0 9 2, .new⟩⟩] }
  wal := 3
  pending := []
  journal := ⟨[(5, 1)], by decide, by decide⟩

theorem length_block (b : UInt8) : (block b).length = BLOCK_BYTES := length_replicate

theorem block_ne {a b : UInt8} (h : a ≠ b) : block a ≠ block b := fun heq =>
  h (replicate_right_injective (by decide : BLOCK_BYTES ≠ 0) heq)

theorem runBytes_block : runBytes 4 data (4, 1) = block 1 ∧ runBytes 4 data (5, 1) = block 2 ∧
    runBytes 4 data (6, 1) = block 3 := by
  have hfirst : ∀ (b : UInt8) (rest : Bytes), (block b ++ rest).take BLOCK_BYTES = block b :=
    fun b rest => take_left' (length_block b)
  have hrest : ∀ (b : UInt8) (rest : Bytes) (k : ℕ),
      (block b ++ rest).drop ((k + 1) * BLOCK_BYTES) = rest.drop (k * BLOCK_BYTES) := by
    intro b rest k
    rw [Nat.succ_mul, Nat.add_comm, ← drop_drop, drop_left' (length_block b)]
  simp only [runBytes, sliceBlocks, data, Nat.one_mul]
  refine ⟨?_, ?_, ?_⟩
  · rw [Nat.sub_self, Nat.zero_mul, drop_zero, hfirst]
  · rw [show 5 - 4 = 0 + 1 from rfl, hrest, Nat.zero_mul, drop_zero, hfirst]
  · rw [show 6 - 4 = 1 + 1 from rfl, hrest, show 1 = 0 + 1 from rfl, hrest, Nat.zero_mul, drop_zero]
    exact take_of_length_le (length_block 3).le

theorem blake3_block : env.blake3 (block 1) = 1 ∧ env.blake3 (block 2) = 2 ∧
    env.blake3 (block 3) = 3 := by
  simp [env, block_ne]

theorem noCollision {b : UInt8} (hb : b = 1 ∨ b = 2 ∨ b = 3) :
    NoCollision env.blake3 plaintext (block b) := by
  obtain ⟨h1, h2, h3⟩ := blake3_block
  have hback : ∀ other, (env.blake3 other = 1 → other = block 1) ∧
      (env.blake3 other = 2 → other = block 2) ∧ (env.blake3 other = 3 → other = block 3) := by
    intro other
    simp only [env]
    split_ifs with h h h <;> refine ⟨fun heq => ?_, fun heq => ?_, fun heq => ?_⟩ <;>
      first | exact h | exact absurd heq (by decide)
  rcases hb with rfl | rfl | rfl
  · refine ⟨by rw [h1]; exact h1, fun other => by rw [h1]; exact (hback other).1, by rw [h1]; decide⟩
  · refine ⟨by rw [h2]; exact h2, fun other => by rw [h2]; exact (hback other).2.1, by rw [h2]; decide⟩
  · refine ⟨by rw [h3]; exact h3, fun other => by rw [h3]; exact (hback other).2.2, by rw [h3]; decide⟩

theorem runs_eq : volume.runs 4 3 = [(4, 1), (5, 1), (6, 1)] := by decide

theorem length_data : data.length = 3 * BLOCK_BYTES := by
  rw [data, length_append, length_append, length_block, length_block, length_block]
  omega

theorem inv_maps : volume.maps.Inv := by
  refine ⟨inv_new, ?_, inv_new⟩
  rintro layer (_ | ⟨_, ⟨⟩⟩)
  exact (inv_new.insertInner Nat.one_pos _ _ _).insertInner Nat.one_pos _ _ _

/-- The volume after the run of block 5. -/
def middle : Volume := volume.writeCommit 5 1 2 .none BLOCK_BYTES 0

/-- The volume after the run of block 6. -/
def last : Volume := middle.writeCommit 6 1 3 .none BLOCK_BYTES 0

theorem commitRun_block (v : Volume) (lba : ℕ) (b : UInt8) :
    v.commitRun env lba (block b) =
      if v.maps.hasFullMatch lba 1 (env.blake3 (block b)) then .ok (false, v)
      else .ok (true, v.writeCommit lba 1 (env.blake3 (block b)) .none BLOCK_BYTES 0) := by
  have hdiv : (block b).length / BLOCK_BYTES = 1 := by rw [length_block, Nat.div_self (by decide)]
  have hstored : ((env.maybeCompress (block b)).getD (block b)).length = BLOCK_BYTES := length_block b
  simp only [commitRun, hdiv, hstored]
  rfl

theorem commitOrSkip_eq_last : commitOrSkip env 4 data volume = .ok (true, last) := by
  obtain ⟨hb1, hb2, hb3⟩ := runBytes_block
  obtain ⟨h1, h2, h3⟩ := blake3_block
  have hskip : volume.maps.hasFullMatch 4 1 1 = true := by decide
  have hpush : volume.maps.hasFullMatch 5 1 2 = false := by decide
  have hpush' : middle.maps.hasFullMatch 6 1 3 = false := by decide
  have hlast : commitRuns env 4 data [(6, 1)] middle = .ok (true, last) := by
    rw [commitRuns, hb3, commitRun_block, h3, hpush']
    rfl
  have hmiddle : commitRuns env 4 data [(5, 1), (6, 1)] volume = .ok (true, last) := by
    rw [commitRuns, hb2, commitRun_block, h2, hpush]
    simp only [Bool.false_eq_true, if_false]
    rw [← middle, hlast]
    rfl
  rw [commitOrSkip_eq length_data, runs_eq, commitRuns, hb1, commitRun_block, h1, hskip]
  simp only [if_true]
  rw [hmiddle]
  rfl

/-- The run of block 4 is skipped, the other two are pushed, and the three blocks read the write. -/
theorem commitOrSkip_sound_split : commitOrSkip env 4 data volume = .ok (true, last) ∧
    volume.runs 4 3 = [(4, 1), (5, 1), (6, 1)] ∧ volume.Holds env 4 data (4, 1) ∧
    last.pending.map (fun w => (w.entry.startLba, w.entry.journal)) = [(5, true), (6, false)] ∧
    ∀ x, 4 ≤ x → x < 7 → last.readBlock plaintext x = some (sliceBlocks data (x - 4) 1) := by
  obtain ⟨hb1, hb2, hb3⟩ := runBytes_block
  have hnocol : ∀ run ∈ volume.runs 4 3,
      NoCollision env.blake3 plaintext (runBytes 4 data run) := by
    simp only [runs_eq, forall_mem_cons, hb1, hb2, hb3]
    exact ⟨noCollision (.inl rfl), noCollision (.inr (.inl rfl)), noCollision (.inr (.inr rfl)), nofun⟩
  refine ⟨commitOrSkip_eq_last, runs_eq, fun x hlo hhi => ?_, rfl,
    (commitOrSkip_sound (by decide) length_data hnocol inv_maps commitOrSkip_eq_last).1⟩
  rw [hb1, blake3_block.1]
  exact inv_maps.read_of_hasFullMatch (by decide) ⟨hlo, hhi⟩

end SplitWrite

end Elide
