import Elide.Coordinator.BlockWrites
import Elide.Lib.Run

/-!
# Generations and prefixes

Flushes land in the open generation. A close seals it and packs it, dropping the block writes that are
dead, and a cut publishes what has been drained. Both the close and the reap judge a block write
against everything the volume knows, the WAL included, although what is in the WAL belongs to a later
generation. A cut then may miss a block without having what overwrote it.

Segments carry numbered writes. The image of a cut has, for each block, the latest write one of its
segments carries.

The steps are coarser than the code's. A write is of one block; a longer one is as many of them, and
what a segment keeps of it is decided block by block. A promote is one step from the WAL to the open
generation, with no failure in between, and lands as one segment: the data and the journal share of a
batch are not told apart, since neither a close nor a cut does. A drain uploads a whole generation.

## Main results

* `Generations.cut_prefix_iff`: every published image is the state of the device after some of the
  first writes exactly when what a cut has lost is the end of its history.
* `Generations.elision_inside_iff`: every image is such a state, and every write that is dropped has
  landed with the write over it, exactly when no close and no reap takes a write that only the WAL
  overwrites.
* `Generations.close_drops_overwritten`: an image that never was.
-/

namespace Elide

open List BlockWrite Nat

/-- The last of the first `t` writes that went to a block. `history` has the block of each write. -/
def lastBefore (history : List ℕ) (t lba : ℕ) : Option ℕ :=
  (List.range t).reverse.find? fun k => decide (history[k]? = some lba)

theorem lastBefore_succ (history : List ℕ) (t lba : ℕ) : lastBefore history (t + 1) lba =
    if history[t]? = some lba then some t else lastBefore history t lba := by
  rw [lastBefore, range_succ, reverse_append, reverse_singleton, singleton_append, find?_cons]
  split_ifs with h
  · rw [decide_eq_true h]
  · rw [decide_eq_false h]
    rfl

theorem lastBefore_eq_none_iff {history : List ℕ} {t lba : ℕ} :
    lastBefore history t lba = none ↔ ∀ k < t, history[k]? ≠ some lba := by
  simp [lastBefore]

theorem lastBefore_eq_some_iff {history : List ℕ} {t lba k : ℕ} :
    lastBefore history t lba = some k ↔
      k < t ∧ history[k]? = some lba ∧ ∀ j, k < j → j < t → history[j]? ≠ some lba := by
  induction t with
  | zero => simp [lastBefore]
  | succ t ih =>
    rw [lastBefore_succ]
    split_ifs with h
    · constructor
      · intro hk
        obtain rfl := Option.some.inj hk
        exact ⟨lt_succ_self _, h, fun j h1 h2 => by omega⟩
      · rintro ⟨hlt, hk, hlast⟩
        by_contra hne
        exact hlast t (by simp at hne; omega) (lt_succ_self t) h
    · rw [ih]
      constructor
      · rintro ⟨hlt, hk, hlast⟩
        refine ⟨Nat.lt_succ_of_lt hlt, hk, fun j h1 h2 => ?_⟩
        rcases Nat.lt_succ_iff_lt_or_eq.mp h2 with h2 | rfl
        · exact hlast j h1 h2
        · exact h
      · rintro ⟨hlt, hk, hlast⟩
        have hne : k ≠ t := fun heq => h (heq ▸ hk)
        exact ⟨by omega, hk, fun j h1 h2 => hlast j h1 (by omega)⟩

theorem exists_lastBefore {history : List ℕ} {t lba k : ℕ} (hk : k < t)
    (hget : history[k]? = some lba) : ∃ n, lastBefore history t lba = some n ∧ k ≤ n := by
  rcases hlast : lastBefore history t lba with _ | n
  · exact absurd hget (lastBefore_eq_none_iff.mp hlast k hk)
  · exact ⟨n, rfl, not_lt.mp fun hlt => (lastBefore_eq_some_iff.mp hlast).2.2 k hlt hk hget⟩

theorem lastBefore_of_quiet {history : List ℕ} {t t' lba : ℕ} (hle : t ≤ t')
    (hquiet : ∀ k, t ≤ k → k < t' → history[k]? ≠ some lba) :
    lastBefore history t' lba = lastBefore history t lba := by
  induction t', hle using le_induction with
  | base => rfl
  | succ t' hle ih =>
    rw [lastBefore_succ, if_neg (hquiet t' hle (lt_succ_self t'))]
    exact ih fun k h1 h2 => hquiet k h1 (lt_succ_of_lt h2)

theorem lastBefore_snoc (history : List ℕ) (x lba : ℕ) {t : ℕ} (ht : t ≤ history.length) :
    lastBefore (history ++ [x]) t lba = lastBefore history t lba := by
  induction t with
  | zero => rfl
  | succ t ih =>
    rw [lastBefore_succ, lastBefore_succ, ih (by omega), List.getElem?_append_left (by omega)]

/-- A segment and what it carries. -/
abbrev CarriedSegment := Ulid × List BlockWrite

/-- Everything the segments carry. -/
def carried (segments : List CarriedSegment) : List BlockWrite := segments.flatMap Prod.snd

variable {segments : List CarriedSegment}

theorem mem_carried {c : BlockWrite} : c ∈ carried segments ↔ ∃ s ∈ segments, c ∈ s.2 := mem_flatMap

/-- The latest write the segments carry for a block. -/
def image (segments : List CarriedSegment) (lba : ℕ) : Option ℕ :=
  (((carried segments).filter fun c => decide (c.lba = lba)).map write).max?

theorem mem_carried_filter {c : BlockWrite} {p : CarriedSegment → Bool} :
    c ∈ carried (segments.filter p) ↔ ∃ s ∈ segments, c ∈ s.2 ∧ p s = true := by
  rw [mem_carried]
  simp only [mem_filter, and_assoc]
  exact exists_congr fun s => and_congr_right fun _ => and_comm

theorem mem_writes {lba n : ℕ} :
    n ∈ ((carried segments).filter fun c => decide (c.lba = lba)).map write ↔
      ⟨lba, n⟩ ∈ carried segments := by
  simp only [mem_map, mem_filter, decide_eq_true_eq]
  constructor
  · rintro ⟨c, ⟨hc, rfl⟩, rfl⟩
    exact hc
  · exact fun h => ⟨_, ⟨h, rfl⟩, rfl⟩

theorem image_eq_some_iff {lba n : ℕ} : image segments lba = some n ↔
      ⟨lba, n⟩ ∈ carried segments ∧ ∀ m, ⟨lba, m⟩ ∈ carried segments → m ≤ n := by
  rw [image, max?_eq_some_iff]
  simp [mem_writes]

theorem image_eq_none_iff {lba : ℕ} :
    image segments lba = none ↔ ∀ m, ⟨lba, m⟩ ∉ carried segments := by
  rw [image, max?_eq_none_iff, eq_nil_iff_forall_not_mem]
  simp [mem_writes]

/-- A volume's generations, with the blocks the guest has written so far. -/
structure Generations where
  /-- The block of each acknowledged write, the first first. -/
  history : List ℕ
  /-- The writes in the open WAL. -/
  wal : List BlockWrite
  pendingOpen : List CarriedSegment
  pendingUpload : List CarriedSegment
  index : List CarriedSegment
  /-- How many writes have been promoted. -/
  promoted : ℕ
  /-- How many are in closed generations. -/
  sealed : ℕ
  /-- How many are in drained ones. -/
  confirmed : ℕ

namespace Generations

variable (s : Generations)

/-- Nothing written, nothing on disk. -/
def init : Generations := ⟨[], [], [], [], [], 0, 0, 0⟩

/-- What has left the WAL: a cut can only ever list segments that carry these. -/
def landed : List BlockWrite :=
  carried s.pendingOpen ++ carried s.pendingUpload ++ carried s.index

/-- What a reap and a close pass judge against: all layers of the volume's maps. -/
def view : List BlockWrite := s.wal ++ s.landed

/-- A guest write or zero. -/
def write (lba : ℕ) : Generations :=
  { s with history := s.history ++ [lba], wal := ⟨lba, s.history.length⟩ :: s.wal }

/-- Promote the WAL into the open generation. -/
def promote (u : Ulid) : Generations :=
  { s with
    pendingOpen := s.pendingOpen ++ [(u, s.wal.filter (standsIn s.wal))]
    wal := []
    promoted := s.history.length }

/-- No block write of the segment is live. -/
def unreachable (seg : CarriedSegment) : Bool := seg.2.all fun c => !c.standsIn s.view

/-- Reap those of the segments that are dead. -/
def reap (candidates : List Ulid) : Generations :=
  { s with pendingOpen := s.pendingOpen.filter fun seg =>
      !(decide (seg.1 ∈ candidates) && s.unreachable seg) }

/-- Pack the inputs of a bucket: the output has what is live of them. -/
def pack (view : List BlockWrite) (dir : List CarriedSegment) (bucket : Ulid × List Ulid) :
    List CarriedSegment :=
  let inputs := dir.filter fun seg => decide (seg.1 ∈ bucket.2)
  let live := (carried inputs).filter (standsIn view)
  let rest := dir.filter fun seg => !decide (seg.1 ∈ bucket.2)
  if live.isEmpty then rest else rest ++ [(bucket.1, live)]

/-- Seal the open generation and pack it, unless the last one is not drained. -/
def closeGeneration (buckets : List (Ulid × List Ulid)) : Generations :=
  if s.pendingUpload.isEmpty then
    { s with
      pendingOpen := []
      pendingUpload := buckets.foldl (pack s.view) s.pendingOpen
      sealed := s.promoted }
  else s

/-- Upload and index every file of the sealed generation. -/
def drain : Generations :=
  { s with index := s.index ++ s.pendingUpload, pendingUpload := [], confirmed := s.sealed }

/-- The steps. A publish lists all indexed segments. -/
inductive Action where
  | write (lba : ℕ)
  | promote (u : Ulid)
  | reap (candidates : List Ulid)
  | closeGeneration (buckets : List (Ulid × List Ulid))
  | drain
  | publish

/-- One step. -/
def step (s : Generations) : Action → Generations
  | .write lba => s.write lba
  | .promote u => s.promote u
  | .reap candidates => s.reap candidates
  | .closeGeneration buckets => s.closeGeneration buckets
  | .drain => s.drain
  | .publish => s

/-! ### Where the writes are -/

/-- The block writes are writes of the history, and among the first `bound`. -/
def Real (history : List ℕ) (bound : ℕ) (cs : List BlockWrite) : Prop :=
  ∀ c ∈ cs, c.write < bound ∧ history[c.write]? = some c.lba

section Real

variable {history : List ℕ} {bound bound' : ℕ} {cs cs' : List BlockWrite}

theorem Real.mono (h : Real history bound cs) (hsub : ∀ c ∈ cs', c ∈ cs) (hle : bound ≤ bound') :
    Real history bound' cs' := fun c hc =>
  ⟨(h c (hsub c hc)).1.trans_le hle, (h c (hsub c hc)).2⟩

theorem Real.snoc (h : Real history bound cs) (lba : ℕ) : Real (history ++ [lba]) bound cs := by
  intro c hc
  obtain ⟨hlt, hget⟩ := h c hc
  refine ⟨hlt, ?_⟩
  rw [List.getElem?_append_left (List.getElem?_eq_some_iff.mp hget).1]
  exact hget

theorem Real.append (h : Real history bound cs) (h' : Real history bound cs') :
    Real history bound (cs ++ cs') := fun c hc =>
  (mem_append.mp hc).elim (h c) (h' c)

/-- No real write is over the last one to a block. -/
theorem Real.standsIn (h : Real history bound cs) {lba k : ℕ}
    (hlast : lastBefore history bound lba = some k) : standsIn cs ⟨lba, k⟩ = true := by
  refine standsIn_iff.mpr fun c hc hlba => ?_
  obtain ⟨hlt, hget⟩ := h c hc
  obtain ⟨n, hn, hle⟩ := exists_lastBefore hlt hget
  rw [hlba, hlast] at hn
  exact Option.some.inj hn ▸ hle

end Real

theorem carried_append (segs segs' : List CarriedSegment) :
    carried (segs ++ segs') = carried segs ++ carried segs' := flatMap_append

variable {c : BlockWrite} {view : List BlockWrite}

/-- What a bucket leaves of a directory: the other segments, and what is live of its inputs. -/
theorem mem_pack (dir : List CarriedSegment) (bucket : Ulid × List Ulid)
    (hdead : c.standsIn view = false) {seg : CarriedSegment} (hc : c ∈ seg.2) :
    seg ∈ pack view dir bucket ↔ seg ∈ dir ∧ seg.1 ∉ bucket.2 := by
  have hrest : seg ∈ dir.filter (fun seg => !decide (seg.1 ∈ bucket.2)) ↔
      seg ∈ dir ∧ seg.1 ∉ bucket.2 := by
    rw [mem_filter, Bool.not_eq_true', decide_eq_false_iff_not]
  rw [pack]
  split_ifs
  · exact hrest
  · rw [mem_append, hrest, mem_singleton]
    refine or_iff_left fun heq => ?_
    rw [heq] at hc
    rw [(mem_filter.mp hc).2] at hdead
    cases hdead

/-- A bucket neither adds nor drops a live write. -/
theorem mem_carried_pack (hlive : c.standsIn view = true)
    (dir : List CarriedSegment) (bucket : Ulid × List Ulid) :
    c ∈ carried (pack view dir bucket) ↔ c ∈ carried dir := by
  have hsplit : c ∈ carried dir ↔ c ∈ carried (dir.filter fun seg => !decide (seg.1 ∈ bucket.2)) ∨
      c ∈ (carried (dir.filter fun seg => decide (seg.1 ∈ bucket.2))).filter (standsIn view) := by
    rw [mem_filter, and_iff_left hlive, mem_carried_filter, mem_carried_filter, mem_carried]
    constructor
    · rintro ⟨seg, hseg, hc⟩
      by_cases hin : seg.1 ∈ bucket.2
      · exact .inr ⟨seg, hseg, hc, decide_eq_true hin⟩
      · exact .inl ⟨seg, hseg, hc, by simpa using hin⟩
    · rintro (⟨seg, hseg, hc, -⟩ | ⟨seg, hseg, hc, -⟩) <;> exact ⟨seg, hseg, hc⟩
  rw [pack, hsplit]
  split_ifs with hempty
  · rw [isEmpty_iff.mp hempty]
    simp
  · rw [carried_append, mem_append]
    exact or_congr Iff.rfl (by simp [carried])

/-- **What a close leaves.** The live writes, and the dead ones of segments in no bucket. -/
theorem mem_closed_iff {buckets : List (Ulid × List Ulid)}
    {dir : List CarriedSegment} :
    c ∈ carried (buckets.foldl (pack view) dir) ↔ c ∈ carried dir ∧ (c.standsIn view = true ∨
      ∃ seg ∈ dir, c ∈ seg.2 ∧ ∀ bucket ∈ buckets, seg.1 ∉ bucket.2) := by
  induction buckets generalizing dir with
  | nil =>
    refine (and_iff_left_of_imp fun hc => .inr ?_).symm
    obtain ⟨seg, hseg, hc⟩ := mem_carried.mp hc
    exact ⟨seg, hseg, hc, nofun⟩
  | cons bucket buckets ih =>
    rw [foldl_cons, ih]
    by_cases hlive : c.standsIn view = true
    · rw [mem_carried_pack hlive, and_iff_left (.inl hlive), and_iff_left (.inl hlive)]
    · -- a dead write stays only where its segment does
      have hmem := fun (seg : CarriedSegment) (hc : c ∈ seg.2) =>
        mem_pack dir bucket (Bool.eq_false_iff.mpr hlive) hc
      simp only [mem_carried, hlive, false_or, forall_mem_cons, Bool.false_eq_true]
      grind

/-- **What a reap leaves.** The live writes, and the dead ones of segments it does not take. -/
theorem mem_reaped_iff (s : Generations) (candidates : List Ulid) :
    c ∈ carried (s.reap candidates).pendingOpen ↔
      c ∈ carried s.pendingOpen ∧ (c.standsIn s.view = true ∨
        ∃ seg ∈ s.pendingOpen, c ∈ seg.2 ∧ ¬ (seg.1 ∈ candidates ∧ s.unreachable seg = true)) := by
  have hleft : c ∈ carried (s.reap candidates).pendingOpen ↔ ∃ seg ∈ s.pendingOpen,
      c ∈ seg.2 ∧ ¬ (seg.1 ∈ candidates ∧ s.unreachable seg = true) := by
    rw [reap, mem_carried_filter]
    simp only [Bool.not_eq_true', Bool.and_eq_false_imp, decide_eq_true_eq, not_and, Bool.not_eq_true]
  rw [hleft]
  constructor
  · rintro ⟨seg, hseg, hc, hnot⟩
    exact ⟨mem_carried.mpr ⟨seg, hseg, hc⟩, .inr ⟨seg, hseg, hc, hnot⟩⟩
  · rintro ⟨hc, hlive | hseg⟩
    · -- a segment with a live write is not unreachable
      obtain ⟨seg, hseg, hmem⟩ := mem_carried.mp hc
      refine ⟨seg, hseg, hmem, fun hdead => ?_⟩
      have := all_eq_true.mp hdead.2 c hmem
      rw [hlive] at this
      cases this
    · exact hseg

/-- Each tier has writes of the part of the history that has reached it. -/
structure Ok (s : Generations) : Prop where
  wal : Real s.history s.history.length s.wal
  pendingOpen : Real s.history s.promoted (carried s.pendingOpen)
  pendingUpload : Real s.history s.sealed (carried s.pendingUpload)
  index : Real s.history s.confirmed (carried s.index)
  promoted_le : s.promoted ≤ s.history.length
  sealed_le : s.sealed ≤ s.promoted
  confirmed_le : s.confirmed ≤ s.sealed

theorem ok_init : init.Ok :=
  ⟨nofun, nofun, nofun, nofun, le_rfl, le_rfl, le_rfl⟩

variable {s}

theorem Ok.step (h : s.Ok) (a : Action) : (s.step a).Ok := by
  cases a with
  | write lba =>
    have hlen : (s.step (.write lba)).history.length = s.history.length + 1 := by
      simp [Generations.step, Generations.write]
    refine ⟨?_, h.pendingOpen.snoc lba, h.pendingUpload.snoc lba, h.index.snoc lba,
      h.promoted_le.trans (by omega), h.sealed_le, h.confirmed_le⟩
    intro c hc
    rcases mem_cons.mp hc with rfl | hc
    · exact ⟨by simp [hlen], by simp [Generations.step, Generations.write]⟩
    · exact ((h.wal.snoc lba).mono (fun _ h => h) (by omega)) c hc
  | promote u =>
    refine ⟨nofun, ?_, h.pendingUpload, h.index, le_rfl, h.sealed_le.trans h.promoted_le,
      h.confirmed_le⟩
    simp only [Generations.step, Generations.promote, carried_append]
    refine (h.pendingOpen.mono (fun _ h => h) h.promoted_le).append (h.wal.mono (fun c hc => ?_) le_rfl)
    obtain ⟨seg, hseg, hc⟩ := mem_carried.mp hc
    rw [mem_singleton.mp hseg] at hc
    exact mem_of_mem_filter hc
  | reap candidates =>
    exact ⟨h.wal, h.pendingOpen.mono (fun _ hc => ((s.mem_reaped_iff candidates).mp hc).1) le_rfl,
      h.pendingUpload, h.index, h.promoted_le, h.sealed_le, h.confirmed_le⟩
  | closeGeneration buckets =>
    rw [Generations.step, closeGeneration]
    split_ifs
    · exact ⟨h.wal, nofun, h.pendingOpen.mono (fun _ hc => (mem_closed_iff.mp hc).1) le_rfl, h.index,
        h.promoted_le, le_rfl, h.confirmed_le.trans h.sealed_le⟩
    · exact h
  | drain =>
    refine ⟨h.wal, h.pendingOpen, nofun, ?_, h.promoted_le, h.sealed_le, le_rfl⟩
    simp only [Generations.step, Generations.drain, carried_append]
    exact (h.index.mono (fun _ h => h) h.confirmed_le).append h.pendingUpload
  | publish => exact h

/-! ### Prefixes -/

/-- The image of the indexed segments is the state of the device after some of the first writes. -/
def PrefixImage (s : Generations) : Prop :=
  ∃ t ≤ s.history.length, ∀ lba, image s.index lba = lastBefore s.history t lba

/-- The indexed segments do not have the last confirmed write to the block. -/
def Lost (s : Generations) (lba : ℕ) : Prop :=
  ∃ k, lastBefore s.history s.confirmed lba = some k ∧ ⟨lba, k⟩ ∉ carried s.index

/-- What is lost is the end of the confirmed history: from some write on, all confirmed writes went to
lost blocks, and those show what they had at that moment. -/
def LostTail (s : Generations) : Prop :=
  ∃ t ≤ s.confirmed, (∀ k lba, t ≤ k → k < s.confirmed → s.history[k]? = some lba → s.Lost lba) ∧
    ∀ lba, s.Lost lba → image s.index lba = lastBefore s.history t lba

theorem Ok.image_of_not_lost (h : s.Ok) {lba : ℕ} (hlost : ¬ s.Lost lba) :
    image s.index lba = lastBefore s.history s.confirmed lba := by
  rcases hlast : lastBefore s.history s.confirmed lba with _ | k
  · refine image_eq_none_iff.mpr fun m hm => ?_
    obtain ⟨hlt, hget⟩ := h.index _ hm
    exact lastBefore_eq_none_iff.mp hlast m hlt hget
  · exact image_eq_some_iff.mpr ⟨by_contra fun hc => hlost ⟨k, hlast, hc⟩, fun m hm =>
      standsIn_iff.mp (h.index.standsIn hlast) _ hm rfl⟩

theorem Ok.prefixImage_iff (h : s.Ok) : s.PrefixImage ↔ s.LostTail := by
  constructor
  · rintro ⟨t, -, ht⟩
    by_cases hle : t ≤ s.confirmed
    · refine ⟨t, hle, fun k lba htk hk hget => ?_, fun lba _ => ht lba⟩
      obtain ⟨n, hlast, hkn⟩ := exists_lastBefore hk hget
      refine ⟨n, hlast, fun hn => ?_⟩
      -- the image shows `n` or a later write, and none from `t` on
      rcases himg : image s.index lba with _ | m
      · exact image_eq_none_iff.mp himg n hn
      · have hnm := (image_eq_some_iff.mp himg).2 n hn
        have := (lastBefore_eq_some_iff.mp ((ht lba).symm.trans himg)).1
        omega
    · -- past the confirmed writes nothing is shown, so nothing is lost
      refine ⟨s.confirmed, le_rfl, fun k lba h1 h2 _ => by omega, ?_⟩
      rintro lba ⟨n, hlast, hn⟩
      have hquiet : ∀ k, s.confirmed ≤ k → k < t → s.history[k]? ≠ some lba := by
        intro k h1 h2 hget
        obtain ⟨m, hm, hkm⟩ := exists_lastBefore h2 hget
        have hlt : m < s.confirmed := (h.index _ (image_eq_some_iff.mp ((ht lba).trans hm)).1).1
        omega
      have himg := ht lba
      rw [lastBefore_of_quiet (not_le.mp hle).le hquiet, hlast] at himg
      exact absurd (image_eq_some_iff.mp himg).1 hn
  · rintro ⟨t, hle, htail, hshow⟩
    refine ⟨t, hle.trans (h.confirmed_le.trans (h.sealed_le.trans h.promoted_le)), fun lba => ?_⟩
    by_cases hlost : s.Lost lba
    · exact hshow lba hlost
    · -- a block that is not lost was not written from `t` on
      rw [h.image_of_not_lost hlost]
      exact lastBefore_of_quiet hle fun k h1 h2 hget => hlost (htail k lba h1 h2 hget)

/-- A publish lists the image of some of the first writes. -/
def PublishesPrefix (s : Generations) : Action → Prop
  | .publish => s.PrefixImage
  | _ => True

/-- A publish finds nothing lost but the end of the history. -/
def LosesTail (s : Generations) : Action → Prop
  | .publish => s.LostTail
  | _ => True

/-- **A cut is a prefix exactly when what it has lost is the end of its history.** Over any run, every
published image is the state of the device after some prefix of the acknowledged writes if and only if
each publish starts in a state in which, from some confirmed write on, all confirmed writes went to
blocks whose last confirmed write no indexed segment has, and those blocks show what they had then. -/
theorem cut_prefix_iff (actions : List Action) :
    Run.Each step PublishesPrefix init actions ↔ Run.Each step LosesTail init actions := by
  refine Run.each_iff_each (I := Ok) (fun _ a h => h.step a) (fun s a h => ?_) ok_init actions
  cases a with
  | publish => exact h.prefixImage_iff
  | _ => exact Iff.rfl

/-! ### Elision inside the generation -/

/-- The tier has the last write to every block among the first `bound`. -/
def Kept (history : List ℕ) (bound : ℕ) (cs : List BlockWrite) : Prop :=
  ∀ lba k, lastBefore history bound lba = some k → ⟨lba, k⟩ ∈ cs

/-- Nothing is lost in any tier. -/
structure Whole (s : Generations) : Prop where
  wal : ∀ k lba, s.promoted ≤ k → s.history[k]? = some lba → ⟨lba, k⟩ ∈ s.wal
  promoted : Kept s.history s.promoted s.landed
  sealed : Kept s.history s.sealed (carried s.pendingUpload ++ carried s.index)
  confirmed : Kept s.history s.confirmed (carried s.index)

/-- Nothing that has landed is over the write, but the WAL is. -/
def Exposed (s : Generations) (c : BlockWrite) : Prop :=
  c.standsIn s.landed = true ∧ c.standsIn s.view = false

/-- Each exposed write of the open generation is in a segment that the reap or close leaves alone. -/
def Inside (s : Generations) : Action → Prop
  | .reap candidates => ∀ c ∈ carried s.pendingOpen, s.Exposed c →
      ∃ seg ∈ s.pendingOpen, c ∈ seg.2 ∧ ¬ (seg.1 ∈ candidates ∧ s.unreachable seg = true)
  | .closeGeneration buckets => s.pendingUpload.isEmpty = true → ∀ c ∈ carried s.pendingOpen,
      s.Exposed c → ∃ seg ∈ s.pendingOpen, c ∈ seg.2 ∧ ∀ bucket ∈ buckets, seg.1 ∉ bucket.2
  | _ => True

/-- A write that a reap or close drops has a later one over it, in a segment that has landed. -/
def ElidesInside (s : Generations) : Action → Prop
  | .reap candidates => ∀ c ∈ carried s.pendingOpen, c ∉ carried (s.reap candidates).pendingOpen →
      ∃ c' ∈ (s.reap candidates).landed, c'.lba = c.lba ∧ c.write < c'.write
  | .closeGeneration buckets => s.pendingUpload.isEmpty = true → ∀ c ∈ carried s.pendingOpen,
      c ∉ carried (s.closeGeneration buckets).pendingUpload →
      ∃ c' ∈ (s.closeGeneration buckets).landed, c'.lba = c.lba ∧ c.write < c'.write
  | _ => True

/-- Let a step take from the open generation only writes that are dead, but for those that are `left`.
Every write it drops has a landed one over it exactly when it leaves the exposed ones. -/
theorem elides_iff_left {kept after : List BlockWrite} {left : BlockWrite → Prop}
    (hkept : ∀ c, c ∈ kept ↔ c ∈ carried s.pendingOpen ∧ (c.standsIn s.view = true ∨ left c))
    (hafter : ∀ c, c ∈ after ↔ c ∈ kept ∨ c ∈ carried s.pendingUpload ∨ c ∈ carried s.index) :
    (∀ c ∈ carried s.pendingOpen, c ∉ kept → ∃ c' ∈ after, c'.lba = c.lba ∧ c.write < c'.write) ↔
      ∀ c ∈ carried s.pendingOpen, s.Exposed c → left c := by
  have hlanded : ∀ c, c ∈ s.landed ↔
      c ∈ carried s.pendingOpen ∨ c ∈ carried s.pendingUpload ∨ c ∈ carried s.index := fun c => by
    rw [landed, mem_append, mem_append, or_assoc]
  constructor
  · rintro h c hc ⟨hstands, hdead⟩
    by_contra hnot
    have hdrop : c ∉ kept := fun hk => by
      rcases ((hkept c).mp hk).2 with hlive | hleft
      · rw [hlive] at hdead
        cases hdead
      · exact hnot hleft
    obtain ⟨c', hc', hlba, hlt⟩ := h c hc hdrop
    have hmem : c' ∈ s.landed :=
      (hlanded c').mpr (((hafter c').mp hc').imp_left fun hk => ((hkept c').mp hk).1)
    exact absurd (standsIn_iff.mp hstands c' hmem hlba) (not_le.mpr hlt)
  · intro h c hc hdrop
    have hdead : c.standsIn s.view = false := Bool.eq_false_iff.mpr fun hlive =>
      hdrop ((hkept c).mpr ⟨hc, .inl hlive⟩)
    have hover : ¬ c.standsIn s.landed = true := fun hstands =>
      hdrop ((hkept c).mpr ⟨hc, .inr (h c hc ⟨hstands, hdead⟩)⟩)
    rw [standsIn_iff] at hover
    push Not at hover
    obtain ⟨c₁, hc₁, hlba₁, hlt₁⟩ := hover
    -- the last landed write to the block is live, or exposed and so left
    obtain ⟨c₂, hc₂, hlba₂, hle₂, hstands⟩ := exists_standsIn hc₁
    refine ⟨c₂, (hafter c₂).mpr (((hlanded c₂).mp hc₂).imp_left fun hopen => ?_),
      hlba₂.trans hlba₁, hlt₁.trans_le hle₂⟩
    refine (hkept c₂).mpr ⟨hopen, ?_⟩
    by_cases hlive : c₂.standsIn s.view = true
    · exact .inl hlive
    · exact .inr (h c₂ hopen ⟨hstands, Bool.eq_false_iff.mpr hlive⟩)

theorem elidesInside_iff (s : Generations) (a : Action) : s.ElidesInside a ↔ s.Inside a := by
  cases a with
  | reap candidates =>
    refine elides_iff_left (fun c => s.mem_reaped_iff candidates) fun c => ?_
    rw [landed, mem_append, mem_append, or_assoc]
    rfl
  | closeGeneration buckets =>
    refine forall_congr' fun hempty => ?_
    have hclosed : s.closeGeneration buckets = { s with
        pendingOpen := []
        pendingUpload := buckets.foldl (pack s.view) s.pendingOpen
        sealed := s.promoted } := if_pos hempty
    rw [hclosed]
    refine elides_iff_left (fun c => mem_closed_iff) fun c => ?_
    rw [isEmpty_iff.mp hempty, landed]
    simp [carried]
  | _ => exact Iff.rfl

theorem kept_zero (history : List ℕ) (cs : List BlockWrite) : Kept history 0 cs := by
  intro lba k hlast
  exact absurd (lastBefore_eq_some_iff.mp hlast).1 (not_lt_zero k)

theorem whole_init : init.Whole where
  wal _ _ _ hget := by cases hget
  promoted := kept_zero _ _
  sealed := kept_zero _ _
  confirmed := kept_zero _ _

/-- Nothing that has landed is over the last promoted write to a block. -/
theorem Ok.standsIn_landed (h : s.Ok) {lba k : ℕ}
    (hlast : lastBefore s.history s.promoted lba = some k) :
    standsIn s.landed ⟨lba, k⟩ = true := by
  have hreal : Real s.history s.promoted s.landed :=
    (h.pendingOpen.append (h.pendingUpload.mono (fun _ h => h) h.sealed_le)).append
      (h.index.mono (fun _ h => h) (h.confirmed_le.trans h.sealed_le))
  exact hreal.standsIn hlast

/-- A step that leaves the exposed writes leaves the last promoted write to a block. -/
theorem Ok.live_or_left (h : s.Ok) {lba k : ℕ} {left : Prop}
    (hlast : lastBefore s.history s.promoted lba = some k) (hleft : s.Exposed ⟨lba, k⟩ → left) :
    standsIn s.view ⟨lba, k⟩ = true ∨ left := by
  by_cases hlive : standsIn s.view ⟨lba, k⟩ = true
  · exact .inl hlive
  · exact .inr (hleft ⟨h.standsIn_landed hlast, Bool.eq_false_iff.mpr hlive⟩)

theorem Whole.promote (h : s.Whole) (hok : s.Ok) (u : Ulid) : (s.promote u).Whole := by
  refine ⟨fun k lba hk hget => ?_, fun lba k hlast => ?_, h.sealed, h.confirmed⟩
  · have hlt := (List.getElem?_eq_some_iff.mp hget).1
    exact absurd hk (not_le.mpr hlt)
  · obtain ⟨hlt, hget, hmax⟩ := lastBefore_eq_some_iff.mp hlast
    simp only [landed, Generations.promote, carried_append]
    by_cases hk : s.promoted ≤ k
    · -- the write is in the WAL, and the last there
      have hwal := h.wal k lba hk hget
      refine mem_append_left _ (mem_append_left _ (mem_append_right _ ?_))
      exact mem_carried.mpr ⟨_, mem_singleton_self _, mem_filter.mpr
        ⟨hwal, hok.wal.standsIn hlast⟩⟩
    · have hold := h.promoted lba k (lastBefore_eq_some_iff.mpr ⟨not_le.mp hk, hget, fun j h1 h2 =>
        hmax j h1 (h2.trans_le hok.promoted_le)⟩)
      simp only [landed, mem_append] at hold ⊢
      exact hold.imp_left (Or.imp_left .inl)

/-- Steps that elide inside the generation lose nothing. -/
theorem Whole.step (h : s.Whole) (hok : s.Ok) {a : Action} (ha : s.Inside a) :
    (s.step a).Whole := by
  cases a with
  | write x =>
    have hle := hok.promoted_le
    have hle' := hok.sealed_le
    have hle'' := hok.confirmed_le
    refine ⟨fun k lba hk hget => ?_, fun lba k hlast => ?_, fun lba k hlast => ?_,
      fun lba k hlast => ?_⟩
    · simp only [Generations.step, Generations.write] at hk hget ⊢
      by_cases hlt : k < s.history.length
      · rw [List.getElem?_append_left hlt] at hget
        exact mem_cons_of_mem _ (h.wal k lba hk hget)
      · have hkl : k = s.history.length := by
          have := (List.getElem?_eq_some_iff.mp hget).1
          simp at this
          omega
        subst hkl
        have hx : x = lba := by simpa using hget
        exact hx ▸ mem_cons_self
    · exact h.promoted lba k ((lastBefore_snoc s.history x lba hle).symm.trans hlast)
    · exact h.sealed lba k ((lastBefore_snoc s.history x lba (by omega)).symm.trans hlast)
    · exact h.confirmed lba k ((lastBefore_snoc s.history x lba (by omega)).symm.trans hlast)
  | promote u => exact h.promote hok u
  | reap candidates =>
    refine ⟨h.wal, fun lba k hlast => ?_, h.sealed, h.confirmed⟩
    have hold := h.promoted lba k hlast
    simp only [landed, mem_append] at hold ⊢
    refine hold.imp_left (Or.imp_left fun hc => ?_)
    exact (s.mem_reaped_iff candidates).mpr ⟨hc, hok.live_or_left hlast (ha _ hc)⟩
  | closeGeneration buckets =>
    rw [Generations.step, closeGeneration]
    split_ifs with hempty
    · have hpacked : Kept s.history s.promoted
          (carried (buckets.foldl (pack s.view) s.pendingOpen) ++ carried s.index) := by
        intro lba k hlast
        have hold := h.promoted lba k hlast
        rw [landed, isEmpty_iff.mp hempty] at hold
        simp only [mem_append] at hold ⊢
        rcases hold with (hc | hc) | hc
        · exact .inl (mem_closed_iff.mpr ⟨hc, hok.live_or_left hlast (ha hempty _ hc)⟩)
        · cases hc
        · exact .inr hc
      exact ⟨h.wal, hpacked, hpacked, h.confirmed⟩
    · exact h
  | drain =>
    refine ⟨h.wal, fun lba k hlast => ?_, fun lba k hlast => ?_, fun lba k hlast => ?_⟩
    · have hold := h.promoted lba k hlast
      simp only [landed, Generations.step, Generations.drain, carried_append, mem_append] at hold ⊢
      rcases hold with (hc | hc) | hc
      · exact .inl (.inl hc)
      · exact .inr (.inr hc)
      · exact .inr (.inl hc)
    · have hold := h.sealed lba k hlast
      simp only [Generations.step, Generations.drain, carried_append, mem_append] at hold ⊢
      exact .inr hold.symm
    · have hold := h.sealed lba k hlast
      simp only [Generations.step, Generations.drain, carried_append, mem_append] at hold ⊢
      exact hold.symm
  | publish => exact h

theorem publishesPrefix_of_inside {actions : List Action} (h : Run.Each step Inside init actions) :
    Run.Each step PublishesPrefix init actions := by
  have halways : Run.Always step (fun s => s.Ok ∧ s.Whole) init actions :=
    Run.always_of_each (fun s a hs ha => ⟨hs.1.step a, hs.2.step hs.1 ha⟩) ⟨ok_init, whole_init⟩ h
  refine halways.each fun s a hs => ?_
  cases a with
  | publish =>
    refine ⟨s.confirmed, hs.1.confirmed_le.trans (hs.1.sealed_le.trans hs.1.promoted_le),
      fun lba => hs.1.image_of_not_lost ?_⟩
    rintro ⟨k, hlast, hnot⟩
    exact hnot (hs.2.confirmed lba k hlast)
  | _ => trivial

/-- **Elision stays inside the generation exactly when the exposed writes are left.** Over any run,
every published image is the state of the device after some prefix of the acknowledged writes and
every write that a reap or close drops has a later one over it in a landed segment, if and only if
each write that a reap or close finds overwritten by the WAL alone is in a segment it does not take. -/
theorem elision_inside_iff (actions : List Action) :
    (Run.Each step PublishesPrefix init actions ∧ Run.Each step ElidesInside init actions) ↔
      Run.Each step Inside init actions := by
  constructor
  · rintro ⟨-, h⟩
    exact h.mono fun s a => (s.elidesInside_iff a).mp
  · intro h
    exact ⟨publishesPrefix_of_inside h, h.mono fun s a => (s.elidesInside_iff a).mpr⟩

namespace CloseDropsOverwritten

/-- Blocks 0 and 1 are promoted as segment 0. Block 0 is overwritten in the WAL, and the close packs
segment 0 into segment 1. -/
def actions : List Action :=
  [.write 0, .write 1, .promote 0, .write 0, .closeGeneration [(1, [0])], .drain, .publish]

/-- The state the cut is published in. -/
def last : Generations := actions.foldl step init

end CloseDropsOverwritten

open CloseDropsOverwritten in
/-- **A close drops what only the WAL overwrites.** The image has write 1 at block 1 and nothing at
block 0, which was written before it. -/
theorem close_drops_overwritten : image last.index 0 = none ∧ image last.index 1 = some 1 ∧
      ¬ Run.Each step PublishesPrefix init actions := by
  have h0 : image last.index 0 = none := by decide
  have h1 : image last.index 1 = some 1 := by decide
  refine ⟨h0, h1, fun h => ?_⟩
  obtain ⟨-, -, -, -, -, -, ⟨t, -, ht⟩, -⟩ := h
  have ht0 := (ht 0).symm.trans h0
  have ht1 := (ht 1).symm.trans h1
  have hlt := (lastBefore_eq_some_iff.mp ht1).1
  exact lastBefore_eq_none_iff.mp ht0 0 (by omega) (by decide)

end Generations

end Elide
