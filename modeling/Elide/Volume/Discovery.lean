import Elide.Segment
import Mathlib.Data.Finset.Sort
import Mathlib.Data.List.Sort

/-!
# Segment discovery under moving files

A segment is a file of one of four directories of its fork: the two generations of `pending/`, `gc/`
and `index/`. A rebuild lists the directories one after another and then opens the listed paths,
while the volume and the coordinator move segments: a promote writes the idx before it removes the
source, a rotation renames the open generation. A path that is gone when the walk gets to it is
skipped.

The order is meant to make this safe: sources are listed before `index/`, and the idx is written
before the source is removed, so that a segment caught in its promote is in one list or the other.
Two things are not covered. The rotation moves files from the directory that is listed second into
the one that was listed first. And a segment in a list is not yet visited: its source may go between
the listing and the open, and then only an idx written before `index/` was listed helps.

An interleaving is a list of moves and, for every read of the walk, the number of moves made before
it. Directory listings are atomic: the renames and removals under one either precede it or follow
it. A segment that is there throughout is not written again meanwhile, so that what becomes of its
sources is told by the moves that take them away (`Walk.Stays`), and of its idx by the promote that
writes it (`Walk.Written`).

## Main results

* `ForkDir.mem_move_iff`: a file stays where it is unless the move takes it.
* `Walk.mem_walkForkLayer`: what the walk visits.
* `Walk.visited_iff_kept`: a segment that is there throughout is visited exactly if a source it has
  at the start is not rotated or removed before its path is opened, or its idx is written before
  `index/` is listed, still there when it is opened, and not replaced by a GC output.
* `Walk.finds_iff_kept`: so the walk finds every such segment exactly when the moves keep it.
* `Walk.misses_rotated_segment`: a rotation between the two listings of `pending/`.
-/

namespace Elide

open List

/-- The directories a segment is found in. `uploadGen` and `openGen` are the generations of
`pending/`; a file of `gc/` counts once its `.staged` sibling is gone. -/
inductive Place where
  | uploadGen
  | openGen
  | gc
  | index
  deriving DecidableEq, Repr

/-- The segments of a fork, by directory. -/
structure ForkDir where
  uploadGen : Finset Ulid
  openGen : Finset Ulid
  gc : Finset Ulid
  index : Finset Ulid
  /-- A rename takes a file from one generation to the other. -/
  apart : Disjoint uploadGen openGen

/-- What the other threads do to the files. -/
inductive Move where
  /-- a worker renames a finished segment into the open generation -/
  | commit (ulid : Ulid)
  | rotate
  /-- the volume renames a compacted segment to its bare name -/
  | applyPlan (ulid : Ulid)
  /-- a promote writes `index/<ulid>.idx` and the cached body -/
  | writeIdx (ulid : Ulid)
  /-- and then removes the source of a drain -/
  | removePending (ulid : Ulid)
  /-- or the idx files of the inputs of a GC output -/
  | removeInputs (ulid : Ulid)
  /-- the volume deletes the bare body of a finished handoff -/
  | finalize (ulid : Ulid)
  deriving DecidableEq, Repr

namespace ForkDir

/-- The segments of one directory. -/
def files (d : ForkDir) : Place → Finset Ulid
  | .uploadGen => d.uploadGen
  | .openGen => d.openGen
  | .gc => d.gc
  | .index => d.index

/-- The segment has a source: a file that a promote reads. -/
def HasSource (d : ForkDir) (ulid : Ulid) : Prop :=
  ulid ∈ d.uploadGen ∨ ulid ∈ d.openGen ∨ ulid ∈ d.gc

/-- The segment is in no directory. -/
def Fresh (d : ForkDir) (ulid : Ulid) : Prop := ¬ d.HasSource ulid ∧ ulid ∉ d.index

instance (d : ForkDir) (ulid : Ulid) : Decidable (d.HasSource ulid) :=
  inferInstanceAs (Decidable (_ ∨ _ ∨ _))

instance (d : ForkDir) (ulid : Ulid) : Decidable (d.Fresh ulid) :=
  inferInstanceAs (Decidable (_ ∧ _))

variable (inputs : Ulid → List Ulid)

/-- One move. `inputs` is the table in the header of a GC output. A segment is written once, under a
ULID of its own. -/
def move (d : ForkDir) : Move → ForkDir
  | .commit ulid =>
    if h : d.Fresh ulid then
      { d with
        openGen := insert ulid d.openGen
        apart := Finset.disjoint_insert_right.mpr ⟨fun hu => h.1 (.inl hu), d.apart⟩ }
    else d
  | .rotate =>
    if d.uploadGen = ∅ ∧ d.openGen ≠ ∅ then
      { d with
        uploadGen := d.openGen
        openGen := ∅
        apart := Finset.disjoint_empty_right _ }
    else d
  | .applyPlan ulid => if d.Fresh ulid then { d with gc := insert ulid d.gc } else d
  | .writeIdx ulid => if d.HasSource ulid then { d with index := insert ulid d.index } else d
  | .removePending ulid =>
    if ulid ∈ d.index then
      -- `find_pending_file` looks in the upload generation first
      if ulid ∈ d.uploadGen then
        { d with
          uploadGen := d.uploadGen.erase ulid
          apart := d.apart.mono_left (Finset.erase_subset _ _) }
      else
        { d with
          openGen := d.openGen.erase ulid
          apart := d.apart.mono_right (Finset.erase_subset _ _) }
    else d
  | .removeInputs ulid =>
    if ulid ∈ d.gc then { d with index := d.index \ (inputs ulid).toFinset } else d
  | .finalize ulid => { d with gc := d.gc.erase ulid }

/-- The move takes the segment's file out of a directory, if it is there. -/
def Takes (d : ForkDir) (ulid : Ulid) : Place → Move → Prop
  | .openGen, .rotate => d.uploadGen = ∅
  | .openGen, .removePending ulid' | .uploadGen, .removePending ulid' =>
    ulid' = ulid ∧ ulid ∈ d.index
  | .gc, .finalize ulid' => ulid' = ulid
  | .index, .removeInputs output => output ∈ d.gc ∧ ulid ∈ inputs output
  | _, _ => False

/-- The directories after the first `n` moves. -/
def after (d : ForkDir) (moves : List Move) (n : ℕ) : ForkDir :=
  (moves.take n).foldl (move inputs) d

variable {inputs} {d : ForkDir} {ulid : Ulid}

/-- **A file stays unless the move takes it.** -/
theorem mem_move_iff {place : Place} (h : ulid ∈ d.files place) (m : Move) :
    ulid ∈ (d.move inputs m).files place ↔ ¬ d.Takes inputs ulid place m := by
  have hopen : ulid ∈ d.openGen → ulid ∉ d.uploadGen := fun ho hu =>
    Finset.disjoint_left.mp d.apart hu ho
  cases m with
  | commit | applyPlan | writeIdx =>
    rw [move]
    split_ifs <;> cases place <;> simp_all [files, Takes]
  | rotate =>
    rw [move]
    split_ifs with hr <;> cases place <;> simp_all [files, Takes]
    intro hempty
    simp [hr hempty] at h
  | removePending v =>
    rw [move]
    split_ifs with hi hu <;> cases place <;> simp_all [files, Takes] <;> grind
  | removeInputs output =>
    rw [move]
    split_ifs <;> cases place <;> simp_all [files, Takes]
  | finalize v => cases place <;> simp_all [move, files, Takes, eq_comm]

/-- What is there already is not written again: a file comes into a directory by the rotation of the
open generation, or as an idx. -/
theorem mem_of_move {place : Place} {m : Move} (hno : ulid ∉ d.files place)
    (hsome : ¬ d.Fresh ulid) (h : ulid ∈ (d.move inputs m).files place) :
    place = .uploadGen ∧ ulid ∈ d.openGen ∨
      place = .index ∧ m = .writeIdx ulid ∧ d.HasSource ulid := by
  cases m with
  | commit v | applyPlan v =>
    rw [move] at h
    split_ifs at h with hf <;> cases place <;> simp_all [files]
  | rotate =>
    rw [move] at h
    split_ifs at h <;> cases place <;> simp_all [files]
  | writeIdx v =>
    rw [move] at h
    split_ifs at h <;> cases place <;> simp_all [files]
  | removePending v =>
    rw [move] at h
    split_ifs at h <;> cases place <;> simp_all [files]
  | removeInputs output =>
    rw [move] at h
    split_ifs at h <;> cases place <;> simp_all [files]
  | finalize v => cases place <;> simp_all [move, files]

theorem after_succ (d : ForkDir) (moves : List Move) (n : ℕ) :
    d.after inputs moves (n + 1) =
      (moves[n]?.toList).foldl (move inputs) (d.after inputs moves n) := by
  rw [after, take_add_one, foldl_append]
  rfl

theorem not_fresh_of_mem {place : Place} (h : ulid ∈ d.files place) : ¬ d.Fresh ulid := by
  rintro ⟨hsource, hindex⟩
  cases place with
  | uploadGen => exact hsource (.inl h)
  | openGen => exact hsource (.inr (.inl h))
  | gc => exact hsource (.inr (.inr h))
  | index => exact hindex h

end ForkDir

/-- A segment file, as discovery returns it. -/
structure SegmentRef where
  ulid : Ulid
  place : Place
  deriving DecidableEq, Repr

/-- The committed tier, `gc/` and `index/`, is walked before `pending/`. -/
def SegmentRef.committed (s : SegmentRef) : Bool := s.place = .gc ∨ s.place = .index

/-- The processing order. -/
def SegmentRef.Before (s s' : SegmentRef) : Prop :=
  s.committed = true ∧ s'.committed = false ∨ s.committed = s'.committed ∧ s.ulid < s'.ulid

/-- When a rebuild of one layer makes its reads: each is given by the number of moves before it. -/
structure Walk where
  /-- the cutoff of an ancestor layer -/
  branchUlid : Option Ulid
  listUpload : ℕ
  listOpen : ℕ
  listGc : ℕ
  listIndex : ℕ
  /-- when the inputs of the listed GC outputs are read -/
  readInputs : ℕ
  /-- when a listed path is opened -/
  opens : SegmentRef → ℕ
  finish : ℕ
  upload_le_open : listUpload ≤ listOpen
  open_le_gc : listOpen ≤ listGc
  gc_le_index : listGc ≤ listIndex
  index_le_inputs : listIndex ≤ readInputs
  inputs_le_opens : ∀ s, readInputs ≤ opens s
  opens_mono : ∀ s s', s.Before s' → opens s ≤ opens s'
  opens_le_finish : ∀ s, opens s ≤ finish

namespace Walk

variable (inputs : Ulid → List Ulid) (dir : ℕ → ForkDir) (w : Walk)

/-- Whether the ULID is at or before the branch point. -/
def inBranch (ulid : Ulid) : Bool := w.branchUlid.all fun cutoff => decide (ulid ≤ cutoff)

/-- When a directory is listed. -/
def lists : Place → ℕ
  | .uploadGen => w.listUpload
  | .openGen => w.listOpen
  | .gc => w.listGc
  | .index => w.listIndex

/-- The segments of the branch that a directory lists, in order. -/
def collect (place : Place) : List SegmentRef :=
  (((dir (w.lists place)).files place).sort.filter w.inBranch).map (⟨·, place⟩)

/-- The inputs of the GC outputs in the list; one that is gone again is passed over. -/
def collectSupersededInputs (segments : List SegmentRef) : List Ulid :=
  (segments.filter fun s => s.place = .gc ∧ s.ulid ∈ (dir w.readInputs).gc).flatMap
    fun s => inputs s.ulid

/-- The segments of a layer, less those that an output names as inputs. -/
def discoverForkSegments : List SegmentRef :=
  let pending := w.collect dir .uploadGen ++ w.collect dir .openGen
  let committed := w.collect dir .gc ++ w.collect dir .index
  let out := committed.insertionSort (fun a b => a.ulid ≤ b.ulid) ++
    pending.insertionSort (fun a b => a.ulid ≤ b.ulid)
  let consumed := w.collectSupersededInputs inputs dir out
  out.filter fun s => ¬ (s.place = .index ∧ s.ulid ∈ consumed)

/-- The segments the walk visits. A path that is gone is skipped, and the walk goes on. -/
def walkForkLayer : List SegmentRef :=
  (w.discoverForkSegments inputs dir).filter fun s => s.ulid ∈ (dir (w.opens s)).files s.place

/-- The segment is there, in one form or another, for as long as the walk takes. -/
def Present (ulid : Ulid) : Prop :=
  ∀ n, w.listUpload ≤ n → n ≤ w.finish → ∃ place, ulid ∈ (dir n).files place

/-- The walk visits every segment that is there throughout. -/
def Finds : Prop :=
  ∀ ulid, w.inBranch ulid = true → w.Present dir ulid →
    ∃ s ∈ w.walkForkLayer inputs dir, s.ulid = ulid

/-- A GC output that is there when `gc/` is listed and when its header is read replaces it. -/
def Superseded (ulid : Ulid) : Prop :=
  ∃ output, w.inBranch output = true ∧ output ∈ (dir w.listGc).gc ∧
    output ∈ (dir w.readInputs).gc ∧ ulid ∈ inputs output

variable {inputs dir w} {s : SegmentRef}

theorem mem_collect {place : Place} :
    s ∈ w.collect dir place ↔ s.place = place ∧ w.inBranch s.ulid = true ∧
      s.ulid ∈ (dir (w.lists place)).files place := by
  obtain ⟨ulid, place'⟩ := s
  simp only [collect, mem_map, mem_filter, Finset.mem_sort, SegmentRef.mk.injEq]
  constructor
  · rintro ⟨v, ⟨hv, hb⟩, rfl, rfl⟩
    exact ⟨rfl, hb, hv⟩
  · rintro ⟨rfl, hb, hv⟩
    exact ⟨ulid, ⟨hv, hb⟩, rfl, rfl⟩

/-- The four listings, before anything is dropped. -/
theorem mem_listed :
    s ∈ (w.collect dir .gc ++ w.collect dir .index).insertionSort (fun a b => a.ulid ≤ b.ulid) ++
        (w.collect dir .uploadGen ++ w.collect dir .openGen).insertionSort
          (fun a b => a.ulid ≤ b.ulid) ↔
      w.inBranch s.ulid = true ∧ s.ulid ∈ (dir (w.lists s.place)).files s.place := by
  simp only [mem_append, mem_insertionSort, mem_collect]
  constructor
  · rintro ((⟨hp, h⟩ | ⟨hp, h⟩) | ⟨hp, h⟩ | ⟨hp, h⟩) <;> rwa [hp]
  · intro h
    cases hp : s.place <;> rw [hp] at h
    · exact .inr (.inl ⟨rfl, h⟩)
    · exact .inr (.inr ⟨rfl, h⟩)
    · exact .inl (.inl ⟨rfl, h⟩)
    · exact .inl (.inr ⟨rfl, h⟩)

theorem mem_discoverForkSegments : s ∈ w.discoverForkSegments inputs dir ↔
      w.inBranch s.ulid = true ∧ s.ulid ∈ (dir (w.lists s.place)).files s.place ∧
        (s.place = .index → ¬ w.Superseded inputs dir s.ulid) := by
  have hconsumed : ∀ ulid, ulid ∈ w.collectSupersededInputs inputs dir
      ((w.collect dir .gc ++ w.collect dir .index).insertionSort (fun a b => a.ulid ≤ b.ulid) ++
        (w.collect dir .uploadGen ++ w.collect dir .openGen).insertionSort
          (fun a b => a.ulid ≤ b.ulid)) ↔ w.Superseded inputs dir ulid := by
    intro ulid
    simp only [collectSupersededInputs, mem_flatMap, mem_filter, mem_listed, decide_eq_true_eq]
    constructor
    · rintro ⟨⟨output, place⟩, ⟨⟨hb, hlisted⟩, rfl, hread⟩, hin⟩
      exact ⟨output, hb, hlisted, hread, hin⟩
    · rintro ⟨output, hb, hlisted, hread, hin⟩
      exact ⟨⟨output, .gc⟩, ⟨⟨hb, hlisted⟩, rfl, hread⟩, hin⟩
  simp only [discoverForkSegments, mem_filter, mem_listed, hconsumed, decide_eq_true_eq,
    not_and, and_assoc]

/-- **What the walk visits.** -/
theorem mem_walkForkLayer : s ∈ w.walkForkLayer inputs dir ↔
      w.inBranch s.ulid = true ∧ s.ulid ∈ (dir (w.lists s.place)).files s.place ∧
        s.ulid ∈ (dir (w.opens s)).files s.place ∧
        (s.place = .index → ¬ w.Superseded inputs dir s.ulid) := by
  simp only [walkForkLayer, mem_filter, mem_discoverForkSegments, decide_eq_true_eq]
  tauto

theorem le_lists (w : Walk) (place : Place) : w.listUpload ≤ w.lists place := by
  have h1 := w.upload_le_open
  have h2 := w.open_le_gc
  have h3 := w.gc_le_index
  cases place <;> simp only [lists] <;> omega

theorem lists_le_opens (w : Walk) (s : SegmentRef) : w.lists s.place ≤ w.opens s := by
  have h1 := w.upload_le_open
  have h2 := w.open_le_gc
  have h3 := w.gc_le_index
  have h4 := w.index_le_inputs
  have h5 := w.inputs_le_opens s
  cases s.place <;> simp only [lists] <;> omega

end Walk

/-! ### The moves during a walk -/

namespace Walk

variable (inputs : Ulid → List Ulid) (d : ForkDir) (moves : List Move) (w : Walk) (ulid : Ulid)

/-- No move from the `n`-th to the `m`-th takes the segment's file out of a directory. -/
def Stays (place : Place) (n m : ℕ) : Prop :=
  ∀ k, n ≤ k → k < m → ∀ mv ∈ moves[k]?, ¬ (d.after inputs moves k).Takes inputs ulid place mv

/-- The idx is there at the first listing, or a promote writes it from then on; and no GC output's
promote removes it up to the `m`-th move. -/
def Written (m : ℕ) : Prop :=
  ∃ n, w.listUpload ≤ n ∧ n ≤ m ∧ Stays inputs d moves ulid .index n m ∧
    (n = w.listUpload ∧ ulid ∈ (d.after inputs moves n).index ∨
      ∃ k, n = k + 1 ∧ w.listUpload ≤ k ∧ moves[k]? = some (.writeIdx ulid) ∧
        (d.after inputs moves k).HasSource ulid)

/-- A source that is there at the first listing stays until its path is opened, or the idx is written
before `index/` is listed, is there when its path is opened and is not replaced. -/
def Kept : Prop :=
  (∃ place, place ≠ .index ∧ ulid ∈ (d.after inputs moves w.listUpload).files place ∧
      Stays inputs d moves ulid place w.listUpload (w.opens ⟨ulid, place⟩)) ∨
    Written inputs d moves w ulid w.listIndex ∧
      Written inputs d moves w ulid (w.opens ⟨ulid, .index⟩) ∧
      ¬ w.Superseded inputs (d.after inputs moves) ulid

variable {inputs d moves w ulid} {p : Place} {n m : ℕ}

theorem Stays.mono {n' m' : ℕ} (h : Stays inputs d moves ulid p n m) (hn : n ≤ n')
    (hm : m' ≤ m) : Stays inputs d moves ulid p n' m' :=
  fun k hk hk' => h k (hn.trans hk) (hk'.trans_le hm)

/-- One move of a run: a file that is there stays exactly if the move does not take it. -/
theorem mem_succ_iff (h : ulid ∈ (d.after inputs moves n).files p) :
    ulid ∈ (d.after inputs moves (n + 1)).files p ↔
      Stays inputs d moves ulid p n (n + 1) := by
  have hone : Stays inputs d moves ulid p n (n + 1) ↔
      ∀ mv ∈ moves[n]?, ¬ (d.after inputs moves n).Takes inputs ulid p mv := by
    refine ⟨fun hs => hs n le_rfl (Nat.lt_succ_self n), fun hs k hk hk' => ?_⟩
    obtain rfl : k = n := by omega
    exact hs
  rw [hone, ForkDir.after_succ]
  cases moves[n]? with
  | none => exact iff_of_true h nofun
  | some mv => simpa using ForkDir.mem_move_iff h mv

/-- A file that stays is there. -/
theorem mem_of_stays (hnm : n ≤ m) (h : ulid ∈ (d.after inputs moves n).files p)
    (hs : Stays inputs d moves ulid p n m) : ulid ∈ (d.after inputs moves m).files p := by
  induction m, hnm using Nat.le_induction with
  | base => exact h
  | succ m hnm ih =>
    have hm := ih (hs.mono le_rfl (Nat.le_succ m))
    exact (mem_succ_iff hm).mpr (hs.mono hnm le_rfl)

/-- **A source is there at a later moment exactly if it stayed**, when nothing brings it back. -/
theorem mem_iff_stays (hnm : n ≤ m) (hback : ∀ k, n ≤ k → k < m →
      ulid ∉ (d.after inputs moves k).files p →
      ulid ∉ (d.after inputs moves (k + 1)).files p) :
    ulid ∈ (d.after inputs moves m).files p ↔
      ulid ∈ (d.after inputs moves n).files p ∧ Stays inputs d moves ulid p n m := by
  refine ⟨fun hm => ?_, fun h => mem_of_stays hnm h.1 h.2⟩
  induction m, hnm using Nat.le_induction with
  | base => exact ⟨hm, fun k hk hk' => absurd hk (not_le.mpr hk')⟩
  | succ m hnm ih =>
    have hmem : ulid ∈ (d.after inputs moves m).files p := by
      by_contra hno
      exact hback m hnm (Nat.lt_succ_self m) hno hm
    obtain ⟨hn, hs⟩ := ih (fun k hk hk' => hback k hk (hk'.trans (Nat.lt_succ_self m))) hmem
    refine ⟨hn, fun k hk hk' => ?_⟩
    rcases Nat.lt_succ_iff_lt_or_eq.mp hk' with hlt | rfl
    · exact hs k hk hlt
    · exact (mem_succ_iff hmem).mp hm k le_rfl (Nat.lt_succ_self k)

section Present

variable (hp : w.Present (d.after inputs moves) ulid)
include hp

/-- A file that comes where it was not comes by the rotation, or is the idx of a promote. -/
theorem mem_of_succ (hn : w.listUpload ≤ n) (hfin : n ≤ w.finish)
    (hno : ulid ∉ (d.after inputs moves n).files p)
    (h : ulid ∈ (d.after inputs moves (n + 1)).files p) :
    p = .uploadGen ∧ ulid ∈ (d.after inputs moves n).openGen ∨
      p = .index ∧ moves[n]? = some (.writeIdx ulid) ∧
        (d.after inputs moves n).HasSource ulid := by
  obtain ⟨p', hplace'⟩ := hp n hn hfin
  rw [ForkDir.after_succ] at h
  cases hm : moves[n]? with
  | none =>
    rw [hm] at h
    exact absurd h hno
  | some mv =>
    rw [hm] at h
    exact (ForkDir.mem_of_move hno (ForkDir.not_fresh_of_mem hplace') h).imp_right
      (.imp_right (.imp_left fun hmv => by rw [hmv]))

theorem mem_openGen_iff (hm : w.listUpload ≤ m) (hfin : m ≤ w.finish) :
    ulid ∈ (d.after inputs moves m).openGen ↔
      ulid ∈ (d.after inputs moves w.listUpload).openGen ∧
        Stays inputs d moves ulid .openGen w.listUpload m := by
  refine mem_iff_stays (p := .openGen) hm fun k hk hk' hno h => ?_
  rcases mem_of_succ hp hk (hk'.le.trans hfin) hno h with ⟨⟨⟩, -⟩ | ⟨⟨⟩, -⟩

/-- A source that is listed and opened was there at the first listing and stayed. -/
theorem source_iff (hsource : p ≠ .index) :
    (ulid ∈ (d.after inputs moves (w.lists p)).files p ∧
        ulid ∈ (d.after inputs moves (w.opens ⟨ulid, p⟩)).files p) ↔
      ulid ∈ (d.after inputs moves w.listUpload).files p ∧
        Stays inputs d moves ulid p w.listUpload (w.opens ⟨ulid, p⟩) := by
  have hlists := w.le_lists p
  have hopens := w.lists_le_opens ⟨ulid, p⟩
  have hfin := w.opens_le_finish ⟨ulid, p⟩
  have hback : ulid ∈ (d.after inputs moves (w.lists p)).files p →
      ∀ k, w.listUpload ≤ k → k < w.opens ⟨ulid, p⟩ →
        ulid ∉ (d.after inputs moves k).files p →
        ulid ∉ (d.after inputs moves (k + 1)).files p := by
    intro hlisted k hk hk' hno h
    rcases mem_of_succ hp hk (hk'.le.trans hfin) hno h with ⟨rfl, hopen⟩ | ⟨rfl, -⟩
    · -- what is in the upload generation at the first listing is not in the open one, then or later
      have hfirst := (mem_openGen_iff hp hk (hk'.le.trans hfin)).mp hopen
      exact Finset.disjoint_left.mp (d.after inputs moves w.listUpload).apart hlisted hfirst.1
    · exact hsource rfl
  constructor
  · rintro ⟨hlisted, hopened⟩
    exact (mem_iff_stays (hlists.trans hopens) (hback hlisted)).mp hopened
  · rintro ⟨hfirst, hs⟩
    exact ⟨mem_of_stays hlists hfirst (hs.mono le_rfl hopens),
      mem_of_stays (hlists.trans hopens) hfirst hs⟩

/-- The idx is there at a moment exactly if it was written and stayed. -/
theorem mem_index_iff (hm : w.listUpload ≤ m) (hfin : m ≤ w.finish) :
    ulid ∈ (d.after inputs moves m).index ↔ Written inputs d moves w ulid m := by
  constructor
  · intro h
    induction m, hm using Nat.le_induction with
    | base => exact ⟨_, le_rfl, le_rfl, fun k hk hk' => absurd hk (not_le.mpr hk'), .inl ⟨rfl, h⟩⟩
    | succ m hm ih =>
      by_cases hmem : ulid ∈ (d.after inputs moves m).index
      · obtain ⟨n, hn, hnm, hs, hwritten⟩ := ih ((Nat.le_succ m).trans hfin) hmem
        have hlast := (mem_succ_iff (p := .index) hmem).mp h
        refine ⟨n, hn, hnm.trans (Nat.le_succ m), fun k hk hk' => ?_, hwritten⟩
        rcases Nat.lt_succ_iff_lt_or_eq.mp hk' with hlt | rfl
        · exact hs k hk hlt
        · exact hlast k le_rfl (Nat.lt_succ_self k)
      · rcases mem_of_succ (p := .index) hp hm ((Nat.le_succ m).trans hfin) hmem h with
          ⟨⟨⟩, -⟩ | ⟨-, hmv, hsource⟩
        exact ⟨m + 1, hm.trans (Nat.le_succ m), le_rfl, fun k hk hk' => absurd hk (not_le.mpr hk'),
          .inr ⟨m, rfl, hm, hmv, hsource⟩⟩
  · rintro ⟨n, hn, hnm, hs, ⟨rfl, h⟩ | ⟨k, rfl, hk, hmv, hsource⟩⟩
    · exact mem_of_stays (p := .index) hnm h hs
    · refine mem_of_stays (p := .index) hnm ?_ hs
      rw [ForkDir.after_succ, hmv]
      simp [ForkDir.move, hsource, ForkDir.files]

/-- **When a segment that is there throughout is visited.** -/
theorem visited_iff_kept (hb : w.inBranch ulid = true) :
    (∃ s ∈ w.walkForkLayer inputs (d.after inputs moves), s.ulid = ulid) ↔
      w.Kept inputs d moves ulid := by
  have hindex := w.le_lists .index
  have hopens := w.lists_le_opens ⟨ulid, .index⟩
  have hfin := w.opens_le_finish ⟨ulid, .index⟩
  have hlisted := mem_index_iff hp hindex (hopens.trans hfin)
  have hopened := mem_index_iff hp (hindex.trans hopens) hfin
  constructor
  · rintro ⟨⟨v, place⟩, hs, rfl⟩
    obtain ⟨-, hlist, hopen, hkept⟩ := mem_walkForkLayer.mp hs
    by_cases hplace : place = .index
    · subst hplace
      exact .inr ⟨hlisted.mp hlist, hopened.mp hopen, hkept rfl⟩
    · exact .inl ⟨place, hplace, (source_iff hp hplace).mp ⟨hlist, hopen⟩⟩
  · rintro (⟨place, hplace, hsource⟩ | ⟨hlist, hopen, hkept⟩)
    · obtain ⟨hlist, hopen⟩ := (source_iff hp hplace).mpr hsource
      exact ⟨⟨ulid, place⟩, mem_walkForkLayer.mpr ⟨hb, hlist, hopen, fun h => absurd h hplace⟩, rfl⟩
    · exact ⟨⟨ulid, .index⟩, mem_walkForkLayer.mpr
        ⟨hb, hlisted.mpr hlist, hopened.mpr hopen, fun _ => hkept⟩, rfl⟩

end Present

/-- **The walk finds every segment that is there throughout exactly when the moves during it keep
each of them.** Of a source this asks that no rotation and no removal comes between the first listing
and the open of its path; of an idx, that its promote comes before `index/` is listed. -/
theorem finds_iff_kept (inputs : Ulid → List Ulid) (d : ForkDir) (moves : List Move) (w : Walk) :
    w.Finds inputs (d.after inputs moves) ↔
      ∀ ulid, w.inBranch ulid = true → w.Present (d.after inputs moves) ulid →
        w.Kept inputs d moves ulid :=
  forall_congr' fun _ => forall_congr' fun hb => forall_congr' fun hp => visited_iff_kept hp hb

end Walk

/-! ### A rotation between two listings -/

namespace RotatedAway

/-- One segment, in the open generation. -/
def fork : ForkDir := ⟨∅, {7}, ∅, ∅, by decide⟩

/-- `pending/upload` is listed before the rotation, everything else after it. -/
def walk : Walk where
  branchUlid := none
  listUpload := 0
  listOpen := 1
  listGc := 1
  listIndex := 1
  readInputs := 1
  opens _ := 1
  finish := 1
  upload_le_open := by decide
  open_le_gc := le_refl 1
  gc_le_index := le_refl 1
  index_le_inputs := le_refl 1
  inputs_le_opens _ := le_refl 1
  opens_mono _ _ _ := le_refl 1
  opens_le_finish _ := le_refl 1

end RotatedAway

open RotatedAway in
/-- The segment is in `open` when `upload` is listed and in `upload` when `open` is listed. -/
theorem Walk.misses_rotated_segment :
    ¬ walk.Finds (fun _ => []) (fork.after (fun _ => []) [.rotate]) := by
  intro h
  have hpresent : walk.Present (fork.after (fun _ => []) [.rotate]) 7 := by
    intro n _ hn
    have hn' : n = 0 ∨ n = 1 := by
      have hn1 : n ≤ 1 := hn
      omega
    rcases hn' with rfl | rfl
    · exact ⟨.openGen, by decide⟩
    · exact ⟨.uploadGen, by decide⟩
  obtain ⟨⟨ulid, place⟩, hs, rfl⟩ := h 7 rfl hpresent
  obtain ⟨-, hlisted, -⟩ := mem_walkForkLayer.mp hs
  revert hlisted
  cases place <;> decide

end Elide
