import Elide.Segment
import Elide.Lib.Run
import Mathlib.Data.Finset.Sort

/-!
# The files of the pending generations

A worker writes a segment to `<ulid>.tmp` in a generation directory and renames it to its bare ULID.
`rotate_open_generation` renames the whole of `pending/open` to `pending/upload`, whatever it holds
and whatever the worker is doing. What empties a generation again are promotes and unlinks, which
know bare ULIDs only, while a generation counts as drained when its directory has no entry at all.

A scratch file that gets into `pending/upload` and is not about to be renamed there stays, and the
generation never drains.

## Main results

* `PendingFiles.closes_iff_clean`: a generation can be closed from a state exactly when
  `pending/upload` has no such scratch file.
* `PendingFiles.always_closes_iff`: a run keeps its generations closable exactly when no rotate
  moves a scratch file and no write into `pending/upload` fails half way.
-/

namespace Elide

open Finset Option

/-- A name in a generation directory: a segment or its scratch file. -/
inductive PendingName where
  | segment (ulid : Ulid)
  | tmp (ulid : Ulid)
  deriving DecidableEq, Repr

/-- A bare ULID, with no extension. -/
def PendingName.isSegment : PendingName → Bool
  | .segment _ => true
  | .tmp _ => false

/-- The directory a worker writes to: promotes and reclaims write to `pending/open`, the close pass
to `pending/upload`. -/
inductive Generation where
  | uploadGen
  | openGen
  deriving DecidableEq, Repr

/-- The generation directories, and the segment write in progress: there is one worker. -/
structure PendingFiles where
  /-- `pending/upload`, when it exists -/
  uploadGen : Option (Finset PendingName)
  openGen : Finset PendingName
  writing : Option (Generation × Ulid)

namespace PendingFiles

variable (s : PendingFiles)

/-- The entries of `pending/upload`. -/
def uploadNames : Finset PendingName := s.uploadGen.getD ∅

/-! ### The directory operations -/

/-- Absent, or holding no files. -/
def uploadGenerationDrained : Bool := decide (s.uploadNames = ∅)

/-- Segments are counted by their names; the rename takes everything. -/
def rotateOpenGeneration : Except String PendingFiles :=
  if s.uploadNames ≠ ∅ then .error "rotate_open_generation: upload generation not drained"
  else if (s.openGen.filter (PendingName.isSegment ·)) = ∅ then .ok { s with uploadGen := none }
  else .ok { s with uploadGen := some s.openGen, openGen := ∅ }

/-- Remove a name from a directory. -/
def remove (name : PendingName) : Generation → PendingFiles
  | .uploadGen => { s with uploadGen := s.uploadGen.map (·.erase name) }
  | .openGen => { s with openGen := s.openGen.erase name }

/-- A promote removes its source, which it looks for in the upload generation first. -/
def promote (ulid : Ulid) : PendingFiles :=
  s.remove (.segment ulid)
    (if PendingName.segment ulid ∈ s.uploadNames then .uploadGen else .openGen)

/-- The worker opens the scratch file; this fails when the directory is not there. -/
def startWrite (dir : Generation) (ulid : Ulid) : PendingFiles :=
  if s.writing.isSome then s
  else
    match dir with
    | .openGen =>
      { s with openGen := insert (.tmp ulid) s.openGen, writing := some (.openGen, ulid) }
    | .uploadGen =>
      match s.uploadGen with
      | none => s
      | some names =>
        { s with uploadGen := some (insert (.tmp ulid) names), writing := some (.uploadGen, ulid) }

/-- The write fails; its scratch file stays. -/
def failWrite : PendingFiles := { s with writing := none }

/-- The rename, by the path the scratch file was opened under. It fails when the file is gone. -/
def finishWrite : PendingFiles :=
  match s.writing with
  | none => s
  | some (.openGen, ulid) =>
    if .tmp ulid ∈ s.openGen then
      { s with openGen := insert (.segment ulid) (s.openGen.erase (.tmp ulid)), writing := none }
    else { s with writing := none }
  | some (.uploadGen, ulid) =>
    if .tmp ulid ∈ s.uploadNames then
      { s with
        uploadGen := s.uploadGen.map fun names =>
          insert (.segment ulid) (names.erase (.tmp ulid))
        writing := none }
    else { s with writing := none }

/-! ### Runs -/

/-- What happens to `pending/`. -/
inductive Action where
  | startWrite (dir : Generation) (ulid : Ulid)
  | failWrite
  | finishWrite
  /-- a rotate that is refused changes nothing -/
  | rotate
  | promote (ulid : Ulid)
  /-- the close pass and the reap unlink segments -/
  | unlink (dir : Generation) (ulid : Ulid)
  deriving DecidableEq, Repr

/-- One action. -/
def step : Action → PendingFiles
  | .startWrite dir ulid => s.startWrite dir ulid
  | .failWrite => s.failWrite
  | .finishWrite => s.finishWrite
  | .rotate => (s.rotateOpenGeneration.toOption).getD s
  | .promote ulid => s.promote ulid
  | .unlink dir ulid => s.remove (.segment ulid) dir

/-- A volume as it is opened: the layout sweeps every scratch file. -/
def opened (uploadGen : Option (Finset Ulid)) (openGen : Finset Ulid) : PendingFiles where
  uploadGen := uploadGen.map (·.image .segment)
  openGen := openGen.image .segment
  writing := none

/-- What takes a segment out of a generation. -/
inductive Removal where
  | promote (ulid : Ulid)
  | unlink (dir : Generation) (ulid : Ulid)

/-- A removal. -/
def takeOut : Removal → PendingFiles
  | .promote ulid => s.promote ulid
  | .unlink dir ulid => s.remove (.segment ulid) dir

/-- Once the write in progress is over and every segment of `pending/upload` is promoted or
unlinked, the generation counts as drained and the next rotate goes through. -/
def Closes : Prop :=
  ∀ removals : List Removal, let s' := removals.foldl takeOut s.finishWrite
    (∀ ulid, .segment ulid ∉ s'.uploadNames) →
      s'.uploadGenerationDrained = true ∧ ∃ next, s'.rotateOpenGeneration = .ok next

/-- The only scratch file of `pending/upload` is the one being written there. -/
def Clean : Prop :=
  ∀ ulid, .tmp ulid ∈ s.uploadNames → s.writing = some (.uploadGen, ulid)

/-- The scratch file of a write into `pending/upload` is there. -/
def WritesInPlace : Prop :=
  ∀ ulid, s.writing = some (.uploadGen, ulid) → .tmp ulid ∈ s.uploadNames

/-- No rotate moves a scratch file, and no write into `pending/upload` fails half way. -/
def Tidy : Action → Prop
  | .rotate => s.uploadNames = ∅ → (∃ ulid, .segment ulid ∈ s.openGen) →
      ∀ ulid, .tmp ulid ∉ s.openGen
  | .failWrite => ∀ ulid, s.writing ≠ some (.uploadGen, ulid)
  | _ => True

variable {s : PendingFiles}

/-! ### What the operations do to `pending/upload` -/

variable (s)

@[simp] theorem uploadNames_remove_uploadGen (name : PendingName) :
    (s.remove name .uploadGen).uploadNames = s.uploadNames.erase name := by
  cases h : s.uploadGen <;> simp [remove, uploadNames, h]

@[simp] theorem uploadNames_remove_openGen (name : PendingName) :
    (s.remove name .openGen).uploadNames = s.uploadNames := rfl

@[simp] theorem writing_remove (name : PendingName) (dir : Generation) :
    (s.remove name dir).writing = s.writing := by
  cases dir <;> rfl

@[simp] theorem uploadNames_promote (ulid : Ulid) :
    (s.promote ulid).uploadNames = s.uploadNames.erase (.segment ulid) := by
  rw [promote]
  split_ifs with h
  · exact uploadNames_remove_uploadGen s _
  · rw [uploadNames_remove_openGen, erase_eq_of_notMem h]

theorem uploadNames_takeOut_subset (r : Removal) : (s.takeOut r).uploadNames ⊆ s.uploadNames := by
  cases r with
  | promote ulid => simp [takeOut, erase_subset]
  | unlink dir ulid => cases dir <;> simp [takeOut, erase_subset]

variable {s}

theorem uploadNames_foldl_takeOut_subset (removals : List Removal) (s : PendingFiles) :
    (removals.foldl takeOut s).uploadNames ⊆ s.uploadNames := by
  induction removals generalizing s with
  | nil => exact Finset.Subset.refl _
  | cons r rs ih => exact (ih (s.takeOut r)).trans (uploadNames_takeOut_subset s r)

/-- Promoting segments takes them out, and nothing else. -/
theorem mem_uploadNames_promotes {ulids : List Ulid} {name : PendingName} :
    name ∈ ((ulids.map Removal.promote).foldl takeOut s).uploadNames ↔
      name ∈ s.uploadNames ∧ ∀ ulid ∈ ulids, name ≠ .segment ulid := by
  induction ulids generalizing s with
  | nil => simp
  | cons ulid ulids ih =>
    rw [List.map_cons, List.foldl_cons, ih, takeOut, uploadNames_promote, mem_erase,
      List.forall_mem_cons]
    tauto

theorem writing_finishWrite (s : PendingFiles) : s.finishWrite.writing = none := by
  rw [finishWrite]
  split
  · assumption
  · split_ifs <;> rfl
  · split_ifs <;> rfl

/-- A rename in `pending/upload` takes its own scratch file and no other. -/
theorem tmp_mem_finishWrite {ulid : Ulid} : .tmp ulid ∈ s.finishWrite.uploadNames ↔
      .tmp ulid ∈ s.uploadNames ∧ s.writing ≠ some (.uploadGen, ulid) := by
  obtain ⟨up, op, wr⟩ := s
  rcases wr with _ | ⟨dir, v⟩
  · simp [finishWrite]
  · cases dir with
    | openGen =>
      by_cases h : PendingName.tmp v ∈ op <;> simp [finishWrite, h, uploadNames]
    | uploadGen =>
      cases up with
      | none => simp [finishWrite, uploadNames]
      | some names =>
        by_cases h : PendingName.tmp v ∈ names
        · simp only [finishWrite, uploadNames, getD_some, h, if_true, map_some,
            mem_insert, reduceCtorEq, false_or, mem_erase, ne_eq,
            PendingName.tmp.injEq, some.injEq, Prod.mk.injEq, true_and]
          rw [and_comm, eq_comm]
        · simp only [finishWrite, uploadNames, getD_some, h, ne_eq,
            some.injEq, Prod.mk.injEq, true_and]
          exact ⟨fun hu => ⟨hu, fun hv => h (hv ▸ hu)⟩, And.left⟩

theorem rotateOpenGeneration_of_empty (h : s.uploadNames = ∅) :
    ∃ next, s.rotateOpenGeneration = .ok next := by
  rw [rotateOpenGeneration, if_neg (not_not_intro h)]
  split_ifs <;> exact ⟨_, rfl⟩

/-- **A generation can be closed exactly when it has no abandoned scratch file.** -/
theorem closes_iff_clean (s : PendingFiles) : s.Closes ↔ s.Clean := by
  constructor
  · intro h ulid hmem
    by_contra hother
    have hstays : .tmp ulid ∈ s.finishWrite.uploadNames := tmp_mem_finishWrite.mpr ⟨hmem, hother⟩
    -- promote every segment there is
    let ulids : List Ulid := s.finishWrite.uploadNames.sup (fun
      | .segment v => {v}
      | .tmp _ => (∅ : Finset Ulid)) |>.sort
    have hall : ∀ v, .segment v ∈ s.finishWrite.uploadNames → v ∈ ulids := by
      intro v hv
      exact (mem_sort _).mpr (mem_sup.mpr ⟨_, hv, mem_singleton_self v⟩)
    obtain ⟨hdrained, -⟩ := h (ulids.map Removal.promote) (by
      intro v hv
      obtain ⟨hv, hne⟩ := mem_uploadNames_promotes.mp hv
      exact hne v (hall v hv) rfl)
    have hleft := mem_uploadNames_promotes.mpr ⟨hstays, fun v (_ : v ∈ ulids) => nofun⟩
    rw [of_decide_eq_true hdrained] at hleft
    exact absurd hleft (notMem_empty _)
  · intro h removals s' hsegments
    have hempty : s'.uploadNames = ∅ := by
      refine eq_empty_of_forall_notMem fun name hname => ?_
      cases name with
      | segment ulid => exact hsegments ulid hname
      | tmp ulid =>
        have hbefore := uploadNames_foldl_takeOut_subset removals s.finishWrite hname
        obtain ⟨hmem, hother⟩ := tmp_mem_finishWrite.mp hbefore
        exact hother (h ulid hmem)
    exact ⟨decide_eq_true hempty, rotateOpenGeneration_of_empty hempty⟩

/-! ### One step -/

/-- Taking a segment out leaves scratch files and the write alone. -/
theorem clean_of_subset {s s' : PendingFiles} (hclean : s.Clean)
    (hnames : s'.uploadNames ⊆ s.uploadNames) (hwriting : s'.writing = s.writing) : s'.Clean :=
  fun ulid hmem => hwriting ▸ hclean ulid (hnames hmem)

/-- A write starts when the worker is free and the directory is there. -/
theorem startWrite_cases (s : PendingFiles) (dir : Generation) (ulid : Ulid) :
    s.startWrite dir ulid = s ∨ s.writing = none ∧ (s.startWrite dir ulid =
          { s with openGen := insert (.tmp ulid) s.openGen, writing := some (.openGen, ulid) } ∨
        ∃ names, s.uploadGen = some names ∧ s.startWrite dir ulid =
          { s with
            uploadGen := some (insert (.tmp ulid) names)
            writing := some (.uploadGen, ulid) }) := by
  obtain ⟨up, op, wr⟩ := s
  cases wr with
  | some w => exact .inl rfl
  | none =>
    cases dir with
    | openGen => exact .inr ⟨rfl, .inl rfl⟩
    | uploadGen =>
      cases up with
      | none => exact .inl rfl
      | some names => exact .inr ⟨rfl, .inr ⟨names, rfl, rfl⟩⟩

theorem clean_startWrite (hclean : s.Clean) (dir : Generation) (ulid : Ulid) :
    (s.startWrite dir ulid).Clean := by
  rcases startWrite_cases s dir ulid with hs | ⟨hnone, hs⟩
  · rwa [hs]
  · have hnotmp : ∀ v, .tmp v ∉ s.uploadNames := by
      intro v hv
      have hw := hclean v hv
      rw [hnone] at hw
      cases hw
    rcases hs with hs | ⟨names, hup, hs⟩
    · rw [hs]
      exact fun v hv => absurd hv (hnotmp v)
    · rw [hs]
      intro v hv
      rcases mem_insert.mp hv with hv | hv
      · rw [PendingName.tmp.inj hv]
      · exact absurd (by rwa [uploadNames, hup]) (hnotmp v)

theorem clean_failWrite_iff (hplace : s.WritesInPlace) (hclean : s.Clean) :
    s.failWrite.Clean ↔ ∀ ulid, s.writing ≠ some (.uploadGen, ulid) := by
  constructor
  · intro h ulid hw
    have hnone := h ulid (hplace ulid hw)
    cases hnone
  · intro h ulid hmem
    exact absurd (hclean ulid hmem) (h ulid)

theorem clean_finishWrite (hclean : s.Clean) : s.finishWrite.Clean := by
  intro ulid hmem
  obtain ⟨hmem, hother⟩ := tmp_mem_finishWrite.mp hmem
  exact absurd (hclean ulid hmem) hother

theorem segments_eq_empty_iff :
    s.openGen.filter (PendingName.isSegment ·) = ∅ ↔ ∀ ulid, .segment ulid ∉ s.openGen := by
  rw [filter_eq_empty_iff]
  constructor
  · intro h ulid hmem
    exact h hmem rfl
  · intro h name hmem hseg
    cases name with
    | segment ulid => exact h ulid hmem
    | tmp ulid => cases hseg

/-- A rotate is refused, finds no segment, or renames. -/
theorem step_rotate_cases (s : PendingFiles) : s.uploadNames ≠ ∅ ∧ s.step .rotate = s ∨
    s.uploadNames = ∅ ∧ (∀ ulid, .segment ulid ∉ s.openGen) ∧
      s.step .rotate = { s with uploadGen := none } ∨
    s.uploadNames = ∅ ∧ (∃ ulid, .segment ulid ∈ s.openGen) ∧
      s.step .rotate = { s with uploadGen := some s.openGen, openGen := ∅ } := by
  by_cases hup : s.uploadNames = ∅
  · by_cases hseg : s.openGen.filter (PendingName.isSegment ·) = ∅
    · refine .inr (.inl ⟨hup, segments_eq_empty_iff.mp hseg, ?_⟩)
      simp [step, rotateOpenGeneration, hup, hseg, Except.toOption]
    · refine .inr (.inr ⟨hup, ?_, ?_⟩)
      · by_contra hnone
        exact hseg (segments_eq_empty_iff.mpr (not_exists.mp hnone))
      · simp [step, rotateOpenGeneration, hup, hseg, Except.toOption]
  · simp [step, rotateOpenGeneration, hup, Except.toOption]

theorem clean_rotate_iff (hplace : s.WritesInPlace) (hclean : s.Clean) :
    (s.step .rotate).Clean ↔ s.Tidy .rotate := by
  rcases step_rotate_cases s with ⟨hup, hs⟩ | ⟨-, hseg, hs⟩ | ⟨hup, hseg, hs⟩
  · rw [hs]
    exact iff_of_true hclean fun hempty => absurd hempty hup
  · rw [hs]
    exact iff_of_true (fun ulid hmem => absurd hmem (notMem_empty _))
      fun _ ⟨ulid, hmem⟩ => absurd hmem (hseg ulid)
  · -- the write in progress, if any, is not in `pending/upload`: that directory is empty
    have hother : ∀ ulid, s.writing ≠ some (.uploadGen, ulid) := by
      intro ulid hw
      have hmem := hplace ulid hw
      rw [hup] at hmem
      exact absurd hmem (notMem_empty _)
    rw [hs]
    constructor
    · intro h _ _ ulid hmem
      exact absurd (h ulid hmem) (hother ulid)
    · intro h ulid hmem
      exact absurd hmem (h hup hseg ulid)

/-- **One step keeps the generations clean exactly when it is tidy.** -/
theorem clean_step_iff (hplace : s.WritesInPlace) (hclean : s.Clean) (a : Action) :
    (s.step a).Clean ↔ s.Tidy a := by
  cases a with
  | startWrite dir ulid => exact iff_of_true (clean_startWrite hclean dir ulid) trivial
  | failWrite => exact clean_failWrite_iff hplace hclean
  | finishWrite => exact iff_of_true (clean_finishWrite hclean) trivial
  | rotate => exact clean_rotate_iff hplace hclean
  | promote ulid =>
    exact iff_of_true (clean_of_subset hclean (uploadNames_takeOut_subset s (.promote ulid))
      (writing_remove ..)) trivial
  | unlink dir ulid =>
    exact iff_of_true (clean_of_subset hclean (uploadNames_takeOut_subset s (.unlink dir ulid))
      (writing_remove ..)) trivial

theorem writesInPlace_remove (hplace : s.WritesInPlace) (ulid : Ulid) (dir : Generation) :
    (s.remove (.segment ulid) dir).WritesInPlace := by
  intro v hw
  cases dir with
  | openGen => exact hplace v hw
  | uploadGen =>
    rw [uploadNames_remove_uploadGen]
    exact mem_erase.mpr ⟨nofun, hplace v hw⟩

theorem writesInPlace_step (hplace : s.WritesInPlace) (a : Action) :
    (s.step a).WritesInPlace := by
  cases a with
  | startWrite dir ulid =>
    rw [step]
    rcases startWrite_cases s dir ulid with hs | ⟨-, hs | ⟨names, -, hs⟩⟩
    · rwa [hs]
    · rw [hs]
      exact fun v hw => by cases hw
    · rw [hs]
      intro v hw
      obtain ⟨-, rfl⟩ := Prod.mk.inj (some.inj hw)
      exact mem_insert_self _ _
  | failWrite => exact fun v hw => by cases hw
  | finishWrite =>
    intro v hw
    rw [step, writing_finishWrite] at hw
    cases hw
  | rotate =>
    rcases step_rotate_cases s with ⟨-, hs⟩ | ⟨hup, -, hs⟩ | ⟨hup, -, hs⟩
    · rwa [hs]
    · rw [hs]
      exact fun v hw => absurd (hup ▸ hplace v hw) (notMem_empty _)
    · rw [hs]
      exact fun v hw => absurd (hup ▸ hplace v hw) (notMem_empty _)
  | promote ulid => exact writesInPlace_remove hplace ulid _
  | unlink dir ulid => exact writesInPlace_remove hplace ulid dir

/-! ### Runs -/

theorem clean_opened (uploadGen : Option (Finset Ulid)) (openGen : Finset Ulid) :
    (opened uploadGen openGen).Clean := by
  intro ulid hmem
  cases uploadGen with
  | none => exact absurd hmem (notMem_empty _)
  | some names => simp [opened, uploadNames] at hmem

/-- **The generations of a run can be closed in every state exactly when every step is tidy.** -/
theorem always_closes_iff (uploadGen : Option (Finset Ulid)) (openGen : Finset Ulid)
    (actions : List Action) :
    Run.Always step Closes (opened uploadGen openGen) actions ↔
      Run.Each step Tidy (opened uploadGen openGen) actions := by
  have hiff : ∀ (s : PendingFiles) (a : Action), s.WritesInPlace → True → s.Closes →
      ((s.step a).Closes ↔ s.Tidy a) := by
    intro s a hplace _ hcloses
    rw [closes_iff_clean]
    exact clean_step_iff hplace ((closes_iff_clean s).mp hcloses) a
  have hplace : (opened uploadGen openGen).WritesInPlace := fun v hw => by cases hw
  exact Run.always_iff_each (fun s a h _ => writesInPlace_step h a) hiff hplace
    ((closes_iff_clean _).mpr (clean_opened uploadGen openGen)) (Run.each_of_forall (by simp) _ _)

/-- The worker has opened its scratch file when the actor rotates; its rename fails, and a retry
writes the segment to the new `pending/open`. The first scratch file is in `pending/upload`. -/
theorem rotate_strands_scratch_file :
    ¬ Run.Always step Closes (opened none {1}) [.startWrite .openGen 2, .rotate, .finishWrite] := by
  intro h
  have hclean := (closes_iff_clean _).mp h.last
  have hmem : PendingName.tmp 2 ∈ (([.startWrite .openGen 2, .rotate, .finishWrite] :
      List Action).foldl step (opened none {1})).uploadNames := by decide
  have hwriting := hclean 2 hmem
  revert hwriting
  decide

end PendingFiles

end Elide
