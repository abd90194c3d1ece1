import Elide.Volume.MovingFiles
import Mathlib.Data.Prod.Lex

/-!
# When a read of moving files is right

What retires a segment publishes first, so the record of a pass is enough to see that a read which
misses only retired segments comes back under a newer snapshot, and before its third miss if at most
two snapshots retire a segment of the read. Everything else is asked of the run.

## Main results

* `ReadStart.read_right_iff`: the read returns the bytes of a snapshot that was published during it
  exactly if no full-segment delta is served by a `.body`, and after missing a segment that no
  snapshot has retired, the read finds a newer snapshot and has not missed three times.
* `ReadScene.read_ends`: a read that has begun comes to its end by its own steps, and
  `ReadScene.rank_step_le`: no step takes it further from it.
* `OvertakenWalk.rotation_fails_read`: a rotation between two probes fails the read.
* `DrainedDelta.promotion_fails_read`: so does the promotion of a segment with a delta.
-/

namespace Elide

open List ReadScene Reading Access Nat

/-- The step is the reader's. -/
def SceneAct.ofReader : SceneAct → Bool
  | .load | .lookup | .probe | .openFound | .reload => true
  | _ => false

namespace ReadScene

variable (shape : Ulid → SegmentShape)

/-! ### The record of a read -/

/-- What holds of a pass under way. A retirement is of a newer snapshot, and without a miss of
another kind every pass but the first was made necessary by one. -/
structure PassOk (s : ReadScene) (a : Attempt) : Prop where
  mem : a.view ∈ s.history
  start : a.startGen ≤ a.view.flushGen
  gen : a.view.flushGen ≤ s.published.flushGen
  fits : ∀ access ∈ a.todo, access.Fits shape
  retired : a.retired ≠ [] →
    a.view.flushGen < s.published.flushGen ∧ a.retirementsBefore < a.retirements
  before : a.retirementsBefore ≤ a.retirements
  few : a.retirements ≤ 2
  pass : a.overtaken = false → a.number ≤ a.retirementsBefore + 1

/-- What holds of a read at each stage. -/
def ReadingOk (s : ReadScene) : Reading → Prop
  | .reading a _ => PassOk shape s a
  | .missed a segmentId => PassOk shape s a ∧ (segmentId ∉ a.retired → a.overtaken = true)
  | _ => True

/-- The invariant of a run. -/
structure Ok (s : ReadScene) : Prop where
  published : s.published ∈ s.history
  fits : ∀ access ∈ s.published.accesses, access.Fits shape
  reading : ReadingOk shape s s.reading

variable {shape} {s s' : ReadScene} {a : Attempt}

theorem PassOk.mono (h : PassOk shape s a) (history : ∀ view ∈ s.history, view ∈ s'.history)
    (gen : s.published.flushGen ≤ s'.published.flushGen) : PassOk shape s' a :=
  { h with
    mem := history _ h.mem
    gen := le_trans h.gen gen
    retired := fun hne => ⟨lt_of_lt_of_le (h.retired hne).1 gen, (h.retired hne).2⟩ }

theorem ReadingOk.mono {r : Reading} (h : ReadingOk shape s r)
    (history : ∀ view ∈ s.history, view ∈ s'.history)
    (gen : s.published.flushGen ≤ s'.published.flushGen) : ReadingOk shape s' r := by
  cases r with
  | idle => trivial
  | reading a lookup => exact PassOk.mono h history gen
  | missed a segmentId => exact ⟨h.1.mono history gen, h.2⟩
  | done startGen endGen result => trivial

/-- A new pass has a retirement in it only if it is noted, and then the snapshot is newer. -/
theorem PassOk.retire (h : PassOk shape s a) {doomed : Finset (FilePlace × Ulid)}
    (few : (a.retire doomed).retirements ≤ 2) (history : ∀ view ∈ s.history, view ∈ s'.history)
    (gen : s.published.flushGen < s'.published.flushGen) : PassOk shape s' (a.retire doomed) := by
  have hmono := h.mono history gen.le
  simp only [Attempt.retire] at few ⊢
  split_ifs at few ⊢ with hhit
  · exact hmono
  · have hbefore := h.before
    exact { hmono with
      retired := fun _ => ⟨lt_of_le_of_lt h.gen gen, lt_succ_of_le hbefore⟩
      before := le_succ_of_le hbefore
      few }

theorem retire_frame (a : Attempt) (doomed : Finset (FilePlace × Ulid)) :
    (a.retire doomed).overtaken = a.overtaken ∧ (a.retire doomed).number = a.number ∧
      (a.retire doomed).todo = a.todo := by
  simp only [Attempt.retire]
  split_ifs
  all_goals exact ⟨rfl, rfl, rfl⟩

theorem mem_retired_retire {segmentId : Ulid} (h : segmentId ∈ a.retired)
    (doomed : Finset (FilePlace × Ulid)) : segmentId ∈ (a.retire doomed).retired := by
  simp only [Attempt.retire]
  split_ifs
  · exact h
  · exact mem_append_left _ h

theorem ReadingOk.retire {r : Reading} (h : ReadingOk shape s r)
    {doomed : Finset (FilePlace × Ulid)} (admits : (r.retire doomed).admits = true)
    (history : ∀ view ∈ s.history, view ∈ s'.history)
    (gen : s.published.flushGen < s'.published.flushGen) :
    ReadingOk shape s' (r.retire doomed) := by
  cases r with
  | idle => trivial
  | reading a lookup =>
    exact PassOk.retire h (of_decide_eq_true admits) history gen
  | missed a segmentId =>
    refine ⟨h.1.retire (of_decide_eq_true admits) history gen, fun hnot => ?_⟩
    rw [(retire_frame a doomed).1]
    exact h.2 fun hmem => hnot (mem_retired_retire hmem doomed)
  | done startGen endGen result => trivial

variable {access : Access}

/-- A pass goes on with fewer accesses to do. -/
theorem PassOk.rest (h : PassOk shape s a) {rest : List Access} (htodo : a.todo = access :: rest) :
    PassOk shape s { a with todo := rest } :=
  { h with fits := fun access' hmem => h.fits access' (htodo ▸ mem_cons_of_mem _ hmem) }

theorem PassOk.miss (h : PassOk shape s a) (segmentId : Ulid) :
    ReadingOk shape s (.missed (a.miss segmentId) segmentId) := by
  refine ⟨{ h with pass := fun hover => ?_ }, fun hnot => ?_⟩
  · exact h.pass (Bool.or_eq_false_iff.mp hover).1
  · simp only [Attempt.miss]
    rw [decide_eq_true (p := segmentId ∉ a.retired) hnot, Bool.or_true]

theorem Ok.congr (h : Ok shape s) (published : s'.published = s.published)
    (history : s'.history = s.history) (reading : ReadingOk shape s s'.reading) : Ok shape s' := by
  refine ⟨?_, ?_, reading.mono ?_ ?_⟩
  · rw [published, history]
    exact h.published
  · rw [published]
    exact h.fits
  · rw [history]
    exact fun _ hview => hview
  · rw [published]

/-! ### One step -/

/-- The descriptor cache is apart from the rest. -/
theorem advanceFds_eq (s : ReadScene) (layoutGen : ℕ) : s.advanceFds layoutGen =
      { s with fdGen := (s.advanceFds layoutGen).fdGen, fds := (s.advanceFds layoutGen).fds } := by
  rw [advanceFds]
  split_ifs
  all_goals rfl

theorem insertFd_eq (s : ReadScene) (layoutGen : ℕ) (segmentId : Ulid)
    (layout : SegmentBodyLayout) :
    s.insertFd layoutGen segmentId layout =
      { s with
        fdGen := (s.insertFd layoutGen segmentId layout).fdGen
        fds := (s.insertFd layoutGen segmentId layout).fds } := by
  simp only [insertFd]
  split_ifs
  · exact advanceFds_eq s layoutGen
  · rw [advanceFds_eq]

/-- Taking bytes from an open file. -/
theorem Ok.serve (h : Ok shape s) (ha : PassOk shape s a) {rest : List Access}
    (htodo : a.todo = access :: rest) (published : s'.published = s.published)
    (history : s'.history = s.history) (layout : SegmentBodyLayout) :
    Ok shape (s'.serve shape a access rest layout) := by
  rw [ReadScene.serve]
  split_ifs
  · exact h.congr published history (ha.rest htodo)
  · exact h.congr published history trivial

theorem right_serve {rest : List Access} (hfits : access.Fits shape) (layout : SegmentBodyLayout) :
    (s.serve shape a access rest layout).Right ↔ access.Served layout := by
  rw [← reads_iff hfits, ReadScene.serve]
  split_ifs with hreads
  · exact iff_of_true trivial hreads
  · refine iff_of_false ?_ hreads
    rintro ⟨view, -, -, -, herror⟩
    cases herror

theorem ok_lookup (h : Ok shape s) : Ok shape (s.lookup shape) := by
  have hreading := h.reading
  rw [lookup]
  split
  · rename_i a heq
    rw [heq] at hreading
    split
    · exact h.congr rfl rfl trivial
    · exact h.congr rfl rfl hreading
    · rename_i access rest _ htodo
      have heq := advanceFds_eq s a.view.layoutGen
      split
      · exact h.serve hreading htodo (by rw [heq]) (by rw [heq]) _
      · exact h.congr (by rw [heq]) (by rw [heq]) hreading
  · exact h

theorem right_lookup (h : Ok shape s) (hright : s.Right) :
    (s.lookup shape).Right ↔ InTime s .lookup := by
  have hreading := h.reading
  rw [lookup]
  cases hr : s.reading with
  | reading a lookup =>
    rw [hr] at hreading
    cases lookup with
    | next =>
      cases htodo : a.todo with
      | nil =>
        simp only [InTime, hr, htodo, iff_true]
        exact ⟨a.view, hreading.mem, hreading.start, hreading.gen, rfl⟩
      | cons access rest =>
        have hfits := hreading.fits access (htodo ▸ mem_cons_self)
        simp only [InTime, hr, htodo]
        cases access with
        | deltaCached segmentId offset length => exact iff_of_true trivial fun _ _ => trivial
        | body | deltaFull =>
          dsimp only
          split
          · rename_i layout hfd
            rw [right_serve hfits]
            exact ⟨fun hserved _ hlayout => Option.mem_unique hfd hlayout ▸ hserved,
              fun hall => hall layout hfd⟩
          · rename_i hfd
            exact iff_of_true trivial fun _ hsome => absurd (hfd.symm.trans hsome) (by simp)
    | probing | found =>
      simp only [InTime, hr, iff_true]
      exact hright
  | idle | missed | done =>
    simp only [InTime, hr, iff_true]
    exact hright

theorem ok_probe (h : Ok shape s) : Ok shape s.probe := by
  have hreading := h.reading
  rw [probe]
  split
  · rename_i a places heq
    rw [heq] at hreading
    split
    · exact h.congr rfl rfl (hreading.miss _)
    · split_ifs
      · exact h.congr rfl rfl hreading
      · exact h.congr rfl rfl hreading
    · exact h
  · exact h

/-- A probe does not end the read. -/
theorem right_probe (hright : s.Right) : s.probe.Right := by
  rw [probe]
  split
  · split
    · trivial
    · split_ifs
      all_goals trivial
    · exact hright
  · exact hright

theorem ok_openFound (h : Ok shape s) : Ok shape (s.openFound shape) := by
  have hreading := h.reading
  rw [openFound]
  split
  · rename_i a place heq
    rw [heq] at hreading
    split
    · exact h
    · rename_i access rest htodo
      have hinsert := insertFd_eq s a.view.layoutGen access.segmentId place.layout
      split_ifs
      · exact h.serve hreading htodo rfl rfl _
      · exact h.serve hreading htodo (by rw [hinsert]) (by rw [hinsert]) _
      · exact h.congr rfl rfl (hreading.miss _)
  · exact h

theorem right_openFound (h : Ok shape s) (hright : s.Right) :
    (s.openFound shape).Right ↔ InTime s .openFound := by
  have hreading := h.reading
  rw [openFound]
  cases hr : s.reading with
  | reading a lookup =>
    rw [hr] at hreading
    cases lookup with
    | found place =>
      cases htodo : a.todo with
      | nil =>
        simp only [InTime, hr, htodo, iff_true]
        exact hright
      | cons access rest =>
        have hfits := hreading.fits access (htodo ▸ mem_cons_self)
        simp only [InTime, hr, htodo]
        split_ifs with hmem hdelta
        · rw [right_serve hfits]
          exact (imp_iff_right hmem).symm
        · rw [right_serve hfits]
          exact (imp_iff_right hmem).symm
        · exact iff_of_true trivial fun hin => absurd hin hmem
    | next | probing =>
      simp only [InTime, hr, iff_true]
      exact hright
  | idle | missed | done =>
    simp only [InTime, hr, iff_true]
    exact hright

/-- A read that is not overtaken comes back under a newer snapshot, and a retirement accounts for
every miss. -/
theorem newer_of_not_overtaken {segmentId : Ulid} (h : ReadingOk shape s (.missed a segmentId))
    (hover : a.overtaken = false) :
    a.number ≤ a.retirements ∧ a.view.flushGen < s.published.flushGen := by
  obtain ⟨hpass, hmiss⟩ := h
  have hmem : segmentId ∈ a.retired := by
    by_contra hnot
    rw [hmiss hnot] at hover
    cases hover
  obtain ⟨hgen, hcount⟩ := hpass.retired (ne_nil_of_mem hmem)
  have hnumber := hpass.pass hover
  exact ⟨by omega, hgen⟩

theorem ok_reload (h : Ok shape s) : Ok shape s.reload := by
  have hreading := h.reading
  rw [reload]
  split
  · rename_i a segmentId heq
    rw [heq] at hreading
    split_ifs with hend
    · exact h.congr rfl rfl trivial
    · have hpass := hreading.1
      refine h.congr rfl rfl {
        mem := h.published
        start := le_trans hpass.start hpass.gen
        gen := le_rfl
        fits := h.fits
        retired := fun hne => absurd rfl hne
        before := le_rfl
        few := hpass.few
        pass := fun hover => succ_le_succ (newer_of_not_overtaken hreading hover).1 }
  · exact h

theorem right_reload (h : Ok shape s) (hright : s.Right) : s.reload.Right ↔ InTime s .reload := by
  have hreading := h.reading
  rw [reload]
  cases hr : s.reading with
  | missed a segmentId =>
    rw [hr] at hreading
    simp only [InTime, hr]
    split_ifs with hend
    · -- the error is what the condition excludes
      refine iff_of_false ?_ fun hintime => ?_
      · rintro ⟨view, -, -, -, herror⟩
        cases herror
      · obtain ⟨hnumber, hgen⟩ : a.number < 3 ∧ a.view.flushGen < s.published.flushGen := by
          cases hover : a.overtaken with
          | false =>
            obtain ⟨hnumber, hgen⟩ := newer_of_not_overtaken hreading hover
            exact ⟨lt_succ_of_le (hnumber.trans hreading.1.few), hgen⟩
          | true =>
            refine ⟨(hintime hover).1, ?_⟩
            by_cases hmem : segmentId ∈ a.retired
            · exact (hreading.1.retired (ne_nil_of_mem hmem)).1
            · exact (hintime hover).2 hmem
        obtain hthree | heq := hend
        · omega
        · omega
    · refine iff_of_true trivial fun _ => ?_
      have hgen := hreading.1.gen
      rw [not_or] at hend
      exact ⟨by omega, fun _ => lt_of_le_of_ne hgen fun heq => hend.2 heq.symm⟩
  | idle | reading | done =>
    simp only [InTime, hr, iff_true]
    exact hright

theorem ok_load (h : Ok shape s) : Ok shape s.load := by
  rw [load]
  split
  · exact h.congr rfl rfl {
      mem := h.published
      start := le_rfl
      gen := le_rfl
      fits := h.fits
      retired := fun hne => absurd rfl hne
      before := le_rfl
      few := zero_le 2
      pass := fun _ => le_rfl }
  · exact h

theorem right_load (hright : s.Right) : s.load.Right := by
  rw [load]
  split
  · trivial
  · exact hright

/-! ### Steps of others -/

/-- What the new snapshot names is there and fits. -/
theorem fits_of_publishable {accesses : List Access} (h : s.publishable shape accesses = true) :
    ∀ access ∈ accesses, access.Fits shape := by
  intro access hmem
  have haccess := all_eq_true.mp h access hmem
  exact of_decide_eq_true (Bool.and_eq_true_iff.mp haccess).1

/-- What has been read stays right. -/
theorem Right.mono (h : s.Right) (reading : s'.reading = s.reading)
    (history : ∀ view ∈ s.history, view ∈ s'.history) : s'.Right := by
  rw [Right, reading]
  rw [Right] at h
  split
  · rename_i startGen endGen result heq
    rw [heq] at h
    obtain ⟨view, hmem, hview⟩ := h
    exact ⟨view, history view hmem, hview⟩
  · trivial

theorem Right.retire (h : s.Right) (doomed : Finset (FilePlace × Ulid))
    (reading : s'.reading = s.reading.retire doomed)
    (history : ∀ view ∈ s.history, view ∈ s'.history) : s'.Right := by
  cases hr : s.reading with
  | done startGen endGen result =>
    refine h.mono ?_ history
    rw [reading, hr]
    rfl
  | idle | reading | missed => rw [Right, reading, hr]; trivial

variable (shape) in
/-- What a step of others can do. -/
inductive Outside (s s' : ReadScene) : Prop
  | same (published : s'.published = s.published) (history : s'.history = s.history)
    (reading : s'.reading = s.reading)
  | publish (mem : s'.published ∈ s'.history)
    (fits : ∀ access ∈ s'.published.accesses, access.Fits shape)
    (history : ∀ view ∈ s.history, view ∈ s'.history)
    (gen : s.published.flushGen < s'.published.flushGen)
    (reading : s'.reading = s.reading ∨
      ∃ doomed, s'.reading = s.reading.retire doomed ∧ s'.reading.admits = true)

theorem outside_step (s : ReadScene) {a : SceneAct} (ha : a.ofReader = false) :
    Outside shape s (s.step shape a) := by
  have hmem : ∀ {view : ReadView}, view ∈ s.history ++ [view] :=
    mem_append_right _ (mem_singleton.mpr rfl)
  cases a with
  | load | lookup | probe | openFound | reload => cases ha
  | commit | fillCache | rotate | unlink =>
    rw [step]
    split_ifs
    all_goals exact .same rfl rfl rfl
  | publish accesses bytes replacesFiles =>
    rw [step]
    split_ifs with hpub
    · exact .publish hmem (fits_of_publishable hpub) (fun _ => mem_append_left _)
        (lt_succ_self _) (.inl rfl)
    · exact .same rfl rfl rfl
  | retire accesses bytes doomed =>
    simp only [step]
    split_ifs with hpub
    · rw [Bool.and_eq_true] at hpub
      exact .publish hmem (fits_of_publishable hpub.1) (fun _ => mem_append_left _)
        (lt_succ_self _) (.inr ⟨doomed, rfl, hpub.2⟩)
    · exact .same rfl rfl rfl
  | insertFd layoutGen segmentId layout =>
    rw [step]
    split_ifs
    · rw [insertFd_eq]
      exact .same rfl rfl rfl
    · exact .same rfl rfl rfl
  | dropFd segmentId => exact .same rfl rfl rfl

theorem Outside.ok (hs : Outside shape s s') (h : Ok shape s) : Ok shape s' := by
  cases hs with
  | same published history reading => exact h.congr published history (reading ▸ h.reading)
  | publish mem fits history gen reading =>
    refine ⟨mem, fits, ?_⟩
    obtain hr | ⟨doomed, hr, admits⟩ := reading
    · rw [hr]
      exact h.reading.mono history gen.le
    · rw [hr] at admits ⊢
      exact h.reading.retire admits history gen

theorem Outside.right (hs : Outside shape s s') (h : s.Right) : s'.Right := by
  cases hs with
  | same published history reading => exact h.mono reading fun _ hview => history ▸ hview
  | publish mem fits history gen reading =>
    obtain hr | ⟨doomed, hr, -⟩ := reading
    · exact h.mono hr history
    · exact h.retire doomed hr history

theorem ok_step (h : Ok shape s) (a : SceneAct) : Ok shape (s.step shape a) := by
  cases a with
  | commit | fillCache | rotate | publish | retire | unlink | insertFd | dropFd =>
    exact (outside_step s rfl).ok h
  | load => exact ok_load h
  | lookup => exact ok_lookup h
  | probe => exact ok_probe h
  | openFound => exact ok_openFound h
  | reload => exact ok_reload h

/-- **One step keeps the read right exactly if it is in time.** -/
theorem right_step (h : Ok shape s) (hright : s.Right) (a : SceneAct) :
    (s.step shape a).Right ↔ InTime s a := by
  cases a with
  | commit | fillCache | rotate | publish | retire | unlink | insertFd | dropFd =>
    exact iff_of_true ((outside_step s rfl).right hright) trivial
  | load => exact iff_of_true (right_load hright) trivial
  | lookup => exact right_lookup h hright
  | probe => exact iff_of_true (right_probe hright) trivial
  | openFound => exact right_openFound h hright
  | reload => exact right_reload h hright

end ReadScene

/-! ### Runs -/

/-- A fork with a published snapshot whose files are there, before the read. -/
structure ReadStart (shape : Ulid → SegmentShape) where
  files : FilePlace → Finset Ulid
  doomed : Finset (FilePlace × Ulid)
  published : ReadView
  fdGen : ℕ
  fds : Ulid → Option SegmentBodyLayout
  publishable : publishable shape
    ⟨files, doomed, published, [published], fdGen, fds, .idle⟩ published.accesses = true

namespace ReadStart

variable {shape : Ulid → SegmentShape} (start : ReadStart shape)

/-- The state a start describes. -/
def scene : ReadScene :=
  ⟨start.files, start.doomed, start.published, [start.published], start.fdGen, start.fds, .idle⟩

theorem ok_scene : ReadScene.Ok shape start.scene :=
  ⟨mem_singleton.mpr rfl, fits_of_publishable start.publishable, trivial⟩

/-- **The read is right exactly along runs that are in time.** -/
theorem read_right_iff (acts : List SceneAct) :
    Run.Always (step shape) ReadScene.Right start.scene acts ↔
      Run.Each (step shape) ReadScene.InTime start.scene acts :=
  Run.always_iff_each (I := ReadScene.Ok shape) (L := fun _ _ => True)
    (fun _ a h _ => ok_step h a) (fun _ a h _ hright => right_step h hright a)
    start.ok_scene trivial (Run.each_of_forall (fun _ _ => trivial) _ _)

end ReadStart

/-! ### The read comes to its end -/

namespace Reading

/-- The step the reader takes next. -/
def own : Reading → SceneAct
  | idle => .load
  | reading _ .next => .lookup
  | reading _ (.probing _) => .probe
  | reading _ (.found _) => .openFound
  | missed _ _ => .reload
  | done _ _ _ => .load

/-- What is left: passes, and steps of the pass, less than ten for an access. -/
def rank : Reading → ℕ ×ₗ ℕ
  | idle => toLex (4, 0)
  | reading a .next => toLex (3 - a.number + 1, 10 * a.todo.length + 9)
  | reading a (.probing places) =>
    toLex (3 - a.number + 1, 10 * a.todo.length + (places.length + 2))
  | reading a (.found _) => toLex (3 - a.number + 1, 10 * a.todo.length + 1)
  | missed a _ => toLex (3 - a.number + 1, 0)
  | done _ _ _ => toLex (0, 0)

/-- The read has started, and a lookup is for an access. -/
def Live : Reading → Prop
  | idle => False
  | reading a (.probing _) | reading a (.found _) => a.todo ≠ []
  | _ => True

/-- Whether the read has returned. -/
def IsDone : Reading → Prop
  | done _ _ _ => True
  | _ => False

theorem rank_lt_of_fst {a b x y : ℕ} (h : a < b) : toLex (a, x) < toLex (b, y) :=
  Prod.Lex.toLex_lt_toLex.mpr (.inl h)

theorem rank_lt_of_snd {n a b : ℕ} (h : a < b) : toLex (n, a) < toLex (n, b) :=
  Prod.Lex.toLex_lt_toLex.mpr (.inr ⟨rfl, h⟩)

theorem rank_retire {r : Reading} (h : r.Live) (doomed : Finset (FilePlace × Ulid)) :
    (r.retire doomed).rank = r.rank ∧ (r.retire doomed).Live := by
  have hsame := fun a => (retire_frame a doomed).2
  cases r with
  | idle => exact h.elim
  | reading a lookup => cases lookup <;> simp_all [retire, rank, Live]
  | missed a segmentId => simp [retire, rank, Live, hsame]
  | done => exact ⟨rfl, trivial⟩

end Reading

namespace ReadScene

variable {shape : Ulid → SegmentShape}

theorem length_places (access : Access) : access.places.length ≤ 6 := by
  cases access with
  | body segmentId source offset length =>
    cases source <;> simp [places, lifecycle]
  | deltaFull segmentId offset length => simp [places, lifecycle]
  | deltaCached segmentId offset length => simp [places]

variable {s : ReadScene}

/-- Taking bytes ends the read or the access. -/
theorem rank_serve {a : Attempt} {access : Access} {rest : List Access}
    (htodo : a.todo = access :: rest) (layout : SegmentBodyLayout) (n : ℕ) :
    (s.serve shape a access rest layout).reading.rank <
      toLex (3 - a.number + 1, 10 * a.todo.length + n) ∧
    (s.serve shape a access rest layout).reading.Live := by
  rw [serve, htodo, length_cons]
  split_ifs
  · exact ⟨rank_lt_of_snd (by dsimp only; omega), trivial⟩
  · exact ⟨rank_lt_of_fst (succ_pos _), trivial⟩

/-- **The reader's own step brings it nearer to its end.** -/
theorem rank_own_lt (hlive : s.reading.Live) (hdone : ¬ s.reading.IsDone) :
    (s.step shape s.reading.own).reading.rank < s.reading.rank ∧
      (s.step shape s.reading.own).reading.Live := by
  cases hr : s.reading with
  | idle =>
    rw [hr] at hlive
    exact hlive.elim
  | done startGen endGen result =>
    rw [hr] at hdone
    exact absurd trivial hdone
  | missed a segmentId =>
    simp only [own, step, reload, hr]
    split_ifs with hend
    · exact ⟨rank_lt_of_fst (succ_pos _), trivial⟩
    · exact ⟨rank_lt_of_fst (by dsimp only; omega), trivial⟩
  | reading a lookup =>
    rw [hr] at hlive
    cases lookup with
    | next =>
      simp only [own, step, lookup, hr]
      split
      · exact ⟨rank_lt_of_fst (succ_pos _), trivial⟩
      · rename_i htodo
        exact ⟨rank_lt_of_snd (by simp [places]), by simp [Reading.Live, htodo]⟩
      · rename_i access rest _ htodo
        split
        · exact rank_serve htodo _ _
        · have hlen := length_places access
          exact ⟨rank_lt_of_snd (by omega), by simp [Reading.Live, htodo]⟩
    | probing places =>
      obtain ⟨access, rest, htodo⟩ := exists_cons_of_ne_nil hlive
      simp only [own, step, probe, hr, htodo]
      cases places with
      | nil => exact ⟨rank_lt_of_snd (by simp [htodo]), trivial⟩
      | cons place places =>
        dsimp only
        split_ifs
        · exact ⟨rank_lt_of_snd (by omega), hlive⟩
        · exact ⟨rank_lt_of_snd (by rw [length_cons]; omega), hlive⟩
    | found place =>
      obtain ⟨access, rest, htodo⟩ := exists_cons_of_ne_nil hlive
      simp only [own, step, openFound, hr, htodo]
      split_ifs
      · exact rank_serve htodo _ _
      · exact rank_serve htodo _ _
      · exact ⟨rank_lt_of_snd (by simp [htodo]), trivial⟩

/-- A step of the reader is the one it takes next, or does nothing. -/
theorem step_eq_of_not_own (hlive : s.reading.Live) {a : SceneAct} (ha : a.ofReader = true)
    (hown : a = s.reading.own → s.reading.IsDone) : s.step shape a = s := by
  cases a with
  | load =>
    rw [step, load]
    split
    · rename_i heq
      rw [heq] at hlive
      exact hlive.elim
    · rfl
  | lookup | probe | openFound | reload =>
    -- each acts on readings of one kind, whose own step it is
    simp only [step, lookup, probe, openFound, reload]
    split
    · rename_i heq
      rw [heq] at hown
      exact (hown rfl).elim
    · rfl
  | commit | fillCache | rotate | publish | retire | unlink | insertFd | dropFd => cases ha

/-- **Nothing takes the read further from its end.** -/
theorem rank_step_le (hlive : s.reading.Live) (a : SceneAct) :
    (s.step shape a).reading.rank ≤ s.reading.rank ∧ (s.step shape a).reading.Live := by
  cases ha : a.ofReader with
  | true =>
    by_cases hown : a = s.reading.own ∧ ¬ s.reading.IsDone
    · rw [hown.1]
      have hrank : (s.step shape s.reading.own).reading.rank < s.reading.rank ∧
          (s.step shape s.reading.own).reading.Live := rank_own_lt hlive hown.2
      exact ⟨hrank.1.le, hrank.2⟩
    · rw [step_eq_of_not_own hlive ha fun heq => not_not.mp fun hdone => hown ⟨heq, hdone⟩]
      exact ⟨le_rfl, hlive⟩
  | false =>
    have houtside : Outside shape s (s.step shape a) := outside_step s ha
    obtain ⟨-, -, hsame⟩ | ⟨-, -, -, -, hsame | ⟨doomed, hretire, -⟩⟩ := houtside
    · rw [hsame]
      exact ⟨le_rfl, hlive⟩
    · rw [hsame]
      exact ⟨le_rfl, hlive⟩
    · rw [hretire]
      exact (rank_retire hlive doomed).imp_left Eq.le

/-- **The read comes to its end by its own steps.** -/
theorem exists_done (hlive : s.reading.Live) :
    ∃ n, (((fun s : ReadScene => s.step shape s.reading.own)^[n]) s).reading.IsDone := by
  induction hrank : s.reading.rank using WellFoundedLT.induction generalizing s with
  | ind rank ih =>
    by_cases hdone : s.reading.IsDone
    · exact ⟨0, hdone⟩
    · have hown : (s.step shape s.reading.own).reading.rank < s.reading.rank ∧
          (s.step shape s.reading.own).reading.Live := rank_own_lt hlive hdone
      obtain ⟨n, hn⟩ := ih _ (hrank ▸ hown.1) hown.2 rfl
      exact ⟨n + 1, hn⟩

/-- **Every read ends.** Whatever has happened since it began, its own steps alone take it to its
end. -/
theorem read_ends (start : ReadStart shape) (acts : List SceneAct) :
    ∃ n, (((fun s : ReadScene => s.step shape s.reading.own)^[n])
      (acts.foldl (step shape) (start.scene.step shape .load))).reading.IsDone := by
  refine exists_done (foldlRecOn acts (step shape) (motive := fun s : ReadScene => s.reading.Live)
    trivial fun s hlive a _ => ?_)
  exact (rank_step_le hlive a).2

end ReadScene

/-! ### A rotation between two probes -/

namespace OvertakenWalk

/-- Segments with a body. -/
def shape : Ulid → SegmentShape := fun _ => ⟨96, 10, 0⟩

/-- One extent, in a segment of the open generation. -/
def start : ReadStart shape where
  files place := if place = .openGen then {7} else ∅
  doomed := ∅
  published := ⟨[.body 7 .local 0 10], [1], 0, 0⟩
  fdGen := 0
  fds _ := none
  publishable := by decide

/-- The walk has probed `wal/` and `pending/upload/` when the generation is rotated. -/
def acts : List SceneAct :=
  [.load, .lookup, .probe, .probe, .rotate, .probe, .probe, .probe, .probe, .reload]

/-- The segment is there, nothing was retired, and the read has failed. -/
theorem rotation_fails_read : (acts.foldl (step shape) start.scene).reading =
        .done 0 0 (.error "segment not found") ∧
      7 ∈ (acts.foldl (step shape) start.scene).files .upload ∧
      ¬ (acts.foldl (step shape) start.scene).Right := by
  have hreading : (acts.foldl (step shape) start.scene).reading =
      .done 0 0 (.error "segment not found") := rfl
  refine ⟨hreading, by decide, ?_⟩
  rintro ⟨view, -, -, -, herror⟩
  cases herror

end OvertakenWalk

/-! ### A delta of a segment that is promoted -/

namespace DrainedDelta

/-- Segments with a body and a delta. -/
def shape : Ulid → SegmentShape := fun _ => ⟨96, 10, 4⟩

/-- A delta in segment 7 of the upload generation, against a source in the cache. -/
def start : ReadStart shape where
  files place := if place = .upload then {7} else if place = .cacheBody then {5} else ∅
  doomed := ∅
  published := ⟨[.body 5 (.cached 0) 0 10, .deltaFull 7 0 4], [1], 0, 0⟩
  fdGen := 0
  fds _ := none
  publishable := by decide

/-- The segment is promoted while the source is read: the snapshot that finds the blob in the cache
is published, and the pending file is unlinked. -/
def acts : List SceneAct :=
  [.load, .lookup, .probe, .openFound, .fillCache 7,
    .retire [.body 5 (.cached 0) 0 10, .deltaCached 7 0 4] [1] {(.upload, 7)}, .unlink .upload 7,
    .lookup, .probe, .probe, .probe, .probe, .probe, .openFound]

/-- The walk ends at the `.body`, which has no delta section, and the error is not NotFound. -/
theorem promotion_fails_read : (acts.foldl (step shape) start.scene).reading =
        .done 0 1 (.error "failed to fill whole buffer") ∧
      ¬ (acts.foldl (step shape) start.scene).Right := by
  have hreading : (acts.foldl (step shape) start.scene).reading =
      .done 0 1 (.error "failed to fill whole buffer") := rfl
  refine ⟨hreading, ?_⟩
  rintro ⟨view, -, -, -, herror⟩
  cases herror

end DrainedDelta

end Elide
