import Elide.Segment
import Elide.Lib.FileBytes
import Elide.Lib.Run

/-!
# Promoting a segment into the cache

`promoteToCache` copies the Data bodies of a segment into `cache/<ulid>.body`, its delta section
into `.delta`, and marks the Data entries in the bit set `.present`. Each file is built aside and
renamed into place: `.delta`, then `.present`, then `.body`. An earlier promote is taken as done when
there is a `.body` and `.present` has all bits.

A demand fetch builds `.body` in place, with the bits of what it has fetched. Where such a file is in
place, the rename of `.present` marks bytes that only the later rename of `.body` brings. What the
call does to the files is the list of its renames, which a crash may cut anywhere, so the state
between the two is one that a retry finds.

## Main results

* `CacheStart.present_sound_iff`: the bits are right along a run of calls, crashes and retries, and
  what has returned is whole, exactly when every rename of `.present` finds a `.body` that has the
  bytes of all Data entries.
* `CacheStart.retry_keeps_partial_body`: a crash between the two renames, after which the retry
  returns over a body that is not whole.
-/

namespace Elide

open List Except

/-- A segment file as a promote reads it. `rest` is what follows the inline section: the body section
of `bodyLength` bytes, then the delta section. -/
structure SegmentSource where
  entries : List SegmentEntry
  bodyLength : ℕ
  deltaLength : ℕ
  rest : FileBytes

/-- What opening and parsing the source gives. -/
inductive SourceFile where
  | missing
  | unreadable (message : String)
  | segment (src : SegmentSource)

/-- The cache form of a segment. -/
structure CacheFiles where
  body : Option FileBytes
  present : Option Bitset
  delta : Option FileBytes

/-- A file put in place. -/
inductive CacheRename where
  | delta (bytes : FileBytes)
  | present (bits : Bitset)
  | body (bytes : FileBytes)

/-- One rename into the cache. -/
def CacheFiles.rename (c : CacheFiles) : CacheRename → CacheFiles
  | .delta bytes => { c with delta := some bytes }
  | .present bits => { c with present := some bits }
  | .body bytes => { c with body := some bytes }

/-- Whether the bit of an entry is set. -/
def CacheFiles.bit (c : CacheFiles) (i : ℕ) : Bool := c.present.any fun bits => bits.get i

/-- Whether the cache form is that of a completed promote: all bits, and a `.delta` if there is a
delta section. Without `.present` it is not. -/
def promoteIsComplete (entries : List SegmentEntry) (deltaLength : ℕ) (c : CacheFiles) : Bool :=
  if 0 < deltaLength ∧ c.delta.isNone then false
  else if c.present.isNone then false
  else entries.zipIdx.all fun (entry, i) => !entry.kind.isData || c.bit i

namespace SegmentSource

variable (src : SegmentSource)

/-- Copy the bytes of one entry. -/
def copyEntry (dst : FileBytes) (entry : SegmentEntry) : Except String FileBytes :=
  if !entry.kind.isData || entry.storedLength = 0 then .ok dst
  else
    let bytes := src.rest.slice entry.storedOffset entry.storedLength
    if bytes.length = entry.storedLength then .ok (dst.writeAt entry.storedOffset bytes)
    else .error "short read promoting segment body"

/-- The sparse body, with holes where there is no Data entry. -/
def buildBody : Except String FileBytes :=
  src.entries.foldlM src.copyEntry (List.replicate src.bodyLength 0)

/-- The delta section. -/
def deltaBytes : FileBytes := src.rest.slice src.bodyLength src.deltaLength

/-- The delta file to write, if the segment has a delta body. -/
def buildDelta : Except String (List CacheRename) :=
  if 0 < src.deltaLength then
    if src.deltaBytes.length = src.deltaLength then .ok [.delta src.deltaBytes]
    else .error "short read promoting delta body"
  else .ok []

/-- The bit set that has the Data entries. -/
def dataBits : Bitset :=
  (Bitset.zero src.entries.length).setAll
    (src.entries.zipIdx.filterMap fun (entry, i) => if entry.kind.isData then some i else none)

end SegmentSource

/-- The renames of a call that finds these files. All that it reads it reads before the first. -/
def promoteToCache (source : SourceFile) (c : CacheFiles) : Except String (List CacheRename) :=
  match source with
  | .missing => if c.body.isSome then .ok [] else .error "No such file or directory"
  | .unreadable e => .error e
  | .segment src =>
    if c.body.isSome && promoteIsComplete src.entries src.deltaLength c then .ok []
    else do
      let body ← src.buildBody
      let delta ← src.buildDelta
      return delta ++ [.present src.dataBits, .body body]

/-! ### What a call builds -/

namespace SegmentSource

variable {src : SegmentSource}

/-- The file has the bytes of the entry. -/
def Holds (src : SegmentSource) (f : FileBytes) (entry : SegmentEntry) : Prop :=
  f.SameAt src.rest entry.storedOffset entry.storedLength

/-- The file has the bytes of every Data entry. -/
def Whole (src : SegmentSource) (body : Option FileBytes) : Prop :=
  ∀ entry ∈ src.entries, entry.kind.isData = true → src.Holds (body.getD []) entry

theorem copyEntry_spec {dst dst' : FileBytes} {entry : SegmentEntry}
    (h : src.copyEntry dst entry = .ok dst') :
    (entry.kind.isData = true → src.Holds dst' entry) ∧
      ∀ e, src.Holds dst e → src.Holds dst' e := by
  simp only [copyEntry] at h
  split_ifs at h with hskip hlen
  · obtain rfl := ok.inj h
    refine ⟨fun hdata => ?_, fun e he => he⟩
    rw [hdata] at hskip
    have hzero : entry.storedLength = 0 := by simpa using hskip
    rw [Holds, hzero]
    exact FileBytes.sameAt_zero _ _ _
  · obtain rfl := ok.inj h
    exact ⟨fun _ => FileBytes.sameAt_writeAt_slice hlen, fun e he => he.writeAt_slice hlen⟩

/-- The loop has copied the entries it has seen. -/
theorem holds_of_foldlM {entries : List SegmentEntry} {dst dst' : FileBytes}
    (h : entries.foldlM src.copyEntry dst = .ok dst') :
    (∀ entry ∈ entries, entry.kind.isData = true → src.Holds dst' entry) ∧
      ∀ e, src.Holds dst e → src.Holds dst' e := by
  induction entries generalizing dst with
  | nil =>
    obtain rfl := ok.inj h
    exact ⟨fun _ he => absurd he not_mem_nil, fun _ he => he⟩
  | cons entry entries ih =>
    obtain ⟨mid, hcopy, h⟩ := Run.exists_of_bind_ok h
    obtain ⟨hentry, hkeep⟩ := copyEntry_spec hcopy
    obtain ⟨hrest, hkeep'⟩ := ih h
    refine ⟨?_, fun e he => hkeep' e (hkeep e he)⟩
    intro e he hdata
    rcases mem_cons.mp he with rfl | he
    · exact hkeep' _ (hentry hdata)
    · exact hrest e he hdata

theorem whole_of_buildBody {body : FileBytes} (h : src.buildBody = .ok body) :
    src.Whole (some body) :=
  (holds_of_foldlM h).1

/-- The built bit set has the Data entries. -/
theorem get_dataBits {i : ℕ} {entry : SegmentEntry} (hi : src.entries[i]? = some entry) :
    src.dataBits.get i = entry.kind.isData := by
  have hmem : ∀ j, j ∈ src.entries.zipIdx.filterMap
      (fun (entry, i) => if entry.kind.isData then some i else none) ↔
        ∃ e, src.entries[j]? = some e ∧ e.kind.isData = true := by
    simp [mem_zipIdx_iff_getElem?]
  have hlen : ∀ j, (∃ e, src.entries[j]? = some e ∧ e.kind.isData = true) →
      j / 8 < (Bitset.zero src.entries.length).length := by
    rintro j ⟨e, hj, -⟩
    have hj := (List.getElem?_eq_some_iff.mp hj).1
    rw [Bitset.zero, length_replicate]
    omega
  rw [dataBits, Bitset.get_setAll fun j hj => hlen j ((hmem j).mp hj), Bitset.get_zero,
    Bool.or_false]
  cases hdata : entry.kind.isData with
  | true => exact decide_eq_true ((hmem i).mpr ⟨entry, hi, hdata⟩)
  | false =>
    refine decide_eq_false fun h => ?_
    obtain ⟨e, he, hd⟩ := (hmem i).mp h
    rw [hi] at he
    obtain rfl := Option.some.inj he
    rw [hdata] at hd
    cases hd

end SegmentSource

/-! ### Calls, crashes and retries -/

/-- The cache and the call that is under way, by the renames it has still to do. -/
structure PromoteState where
  files : CacheFiles
  running : Option (List CacheRename)

/-- What happens to a promotion to the cache. -/
inductive PromoteAct where
  | call
  /-- The next rename, or the return. -/
  | proceed
  | crash

namespace PromoteState

variable (src : SegmentSource) (s : PromoteState)

/-- One action. -/
def step : PromoteAct → PromoteState
  | .call =>
    match s.running, promoteToCache (.segment src) s.files with
    | none, .ok renames => { s with running := some renames }
    | _, _ => s
  | .proceed =>
    match s.running with
    | some (r :: rs) => ⟨s.files.rename r, some rs⟩
    | some [] => { s with running := none }
    | none => s
  | .crash => { s with running := none }

variable (c : CacheFiles)

/-- Every set bit of a Data entry has its bytes in `.body`. -/
def Sound : Prop :=
  ∀ i entry, src.entries[i]? = some entry → entry.kind.isData = true → c.bit i = true →
    src.Holds (c.body.getD []) entry

/-- `.present` has every Data entry. -/
def Marked : Prop :=
  ∀ i entry, src.entries[i]? = some entry → entry.kind.isData = true → c.bit i = true

/-- `.delta` has the delta section. -/
def DeltaIn : Prop := 0 < src.deltaLength → c.delta = some src.deltaBytes

/-- The source can be deleted. -/
def Complete : Prop := Marked src c ∧ src.Whole c.body ∧ DeltaIn src c

/-- The bits are right, and a call that returns leaves all that the source has. -/
def Right : Prop :=
  Sound src s.files ∧ (s.running = some [] → Complete src s.files)

/-- What a call has done that has these renames still to do. -/
inductive Done (c : CacheFiles) : List CacheRename → Prop
  | start {body : FileBytes} (hbody : src.Whole (some body)) :
    Done c [.delta src.deltaBytes, .present src.dataBits, .body body]
  | delta {body : FileBytes} (hbody : src.Whole (some body)) (hd : DeltaIn src c) :
    Done c [.present src.dataBits, .body body]
  | present {body : FileBytes} (hbody : src.Whole (some body)) (hm : Marked src c)
    (hd : DeltaIn src c) : Done c [.body body]
  | all (hm : Marked src c) (hd : DeltaIn src c) : Done c []

/-- What holds along every run. -/
structure Ok (s : PromoteState) : Prop where
  delta : ∀ bytes, s.files.delta = some bytes → bytes = src.deltaBytes
  done : ∀ renames, s.running = some renames → Done src s.files renames

/-- The next step puts `.present` in place. -/
def MarksNext (a : PromoteAct) : Prop :=
  a = .proceed ∧ ∃ bits rest, s.running = some (.present bits :: rest)

variable {s : PromoteState}

theorem MarksNext.head {a : PromoteAct} (h : MarksNext s a) {running : Option (List CacheRename)}
    (hr : s.running = running) : ∃ bits rest, running = some (.present bits :: rest) := by
  rw [← hr]
  exact h.2

variable {src} {c : CacheFiles}

theorem whole_of_sound (hm : Marked src c) (hs : Sound src c) : src.Whole c.body := by
  intro entry hmem hdata
  obtain ⟨i, hi⟩ := mem_iff_getElem?.mp hmem
  exact hs i entry hi hdata (hm i entry hi hdata)

theorem sound_of_whole (h : src.Whole c.body) : Sound src c :=
  fun _ entry hi hdata _ => h entry (mem_of_getElem? hi) hdata

/-- With all bits in place, the bits are right exactly if the body is whole. -/
theorem sound_marked_iff (hm : Marked src c) : Sound src c ↔ src.Whole c.body :=
  ⟨whole_of_sound hm, sound_of_whole⟩

/-- What returns is complete if the bits are right. -/
theorem right_iff (h : Ok src s) : Right src s ↔ Sound src s.files := by
  refine ⟨fun hr => hr.1, fun hs => ⟨hs, fun hret => ?_⟩⟩
  obtain ⟨⟩ | ⟨⟩ | ⟨⟩ | ⟨hm, hd⟩ := h.done [] hret
  exact ⟨hm, whole_of_sound hm hs, hd⟩

theorem marked_dataBits : Marked src { c with present := some src.dataBits } := by
  intro i entry hi hdata
  exact (SegmentSource.get_dataBits hi).trans hdata

/-- The reuse check, for a `.delta` that is the section if it is there. -/
theorem done_of_complete (hdelta : ∀ bytes, c.delta = some bytes →
    bytes = src.deltaBytes) (h : promoteIsComplete src.entries src.deltaLength c = true) :
    Done src c [] := by
  rw [promoteIsComplete] at h
  split_ifs at h with hmissing
  rw [all_eq_true] at h
  refine .all (fun i entry hi hdata => ?_) fun hpos => ?_
  · have hbit := h (entry, i) (mem_zipIdx_iff_getElem?.mpr hi)
    simpa [hdata] using hbit
  · cases hd : c.delta with
    | none => exact absurd ⟨hpos, by rw [hd]; rfl⟩ hmissing
    | some bytes => rw [hdelta bytes hd]

/-- A call starts with all its renames to do. -/
theorem done_of_promoteToCache {renames : List CacheRename}
    (hdelta : ∀ bytes, c.delta = some bytes → bytes = src.deltaBytes)
    (h : promoteToCache (.segment src) c = .ok renames) : Done src c renames := by
  simp only [promoteToCache] at h
  split_ifs at h with hreuse
  · obtain rfl := ok.inj h
    rw [Bool.and_eq_true] at hreuse
    exact done_of_complete hdelta hreuse.2
  · cases hbody : src.buildBody with
    | error e =>
      rw [hbody] at h
      cases h
    | ok body =>
      have hwhole := SegmentSource.whole_of_buildBody hbody
      rw [hbody, SegmentSource.buildDelta] at h
      split_ifs at h with hpos hlen
      · obtain rfl := ok.inj h
        exact .start hwhole
      · cases h
      · obtain rfl := ok.inj h
        exact .delta hwhole fun hp => absurd hp hpos

theorem done_rename {r : CacheRename} {rs : List CacheRename} (h : Done src c (r :: rs)) :
    Done src (c.rename r) rs := by
  cases h with
  | start hbody => exact .delta hbody fun _ => rfl
  | delta hbody hd => exact .present hbody marked_dataBits hd
  | present hbody hm hd => exact .all hm hd

theorem Ok.step (h : Ok src s) (a : PromoteAct) : Ok src (s.step src a) := by
  cases a with
  | call =>
    rw [PromoteState.step]
    split
    · rename_i renames hrunning hcall
      refine ⟨h.delta, fun renames' hr => ?_⟩
      obtain rfl := Option.some.inj hr
      exact done_of_promoteToCache h.delta hcall
    · exact h
  | proceed =>
    rw [PromoteState.step]
    split
    · rename_i r rs hrunning
      have hdone := h.done _ hrunning
      refine ⟨?_, fun renames hr => ?_⟩
      · intro bytes hbytes
        cases hdone with
        | start hbody => exact (Option.some.inj hbytes).symm
        | delta | present => exact h.delta bytes hbytes
      · obtain rfl := Option.some.inj hr
        exact done_rename hdone
    · exact ⟨h.delta, fun _ hr => by cases hr⟩
    · exact h
  | crash => exact ⟨h.delta, fun _ hr => by cases hr⟩

/-- A step keeps the bits right exactly if it is not a rename of `.present` beside a body that is
not whole. -/
theorem right_step_iff (h : Ok src s) (a : PromoteAct) (hs : Right src s) :
    Right src (s.step src a) ↔ (MarksNext s a → src.Whole s.files.body) := by
  rw [right_iff (h.step a)]
  rw [right_iff h] at hs
  cases a with
  | call =>
    refine iff_of_true ?_ fun hmarks => by cases hmarks.1
    rw [step]
    split
    · exact hs
    · exact hs
  | crash => exact iff_of_true hs fun hmarks => by cases hmarks.1
  | proceed =>
    rw [step]
    split
    · rename_i r rs hrunning
      have hdone := h.done _ hrunning
      cases hdone with
      | start hbody =>
        exact iff_of_true hs fun hmarks => by obtain ⟨_, _, ⟨⟩⟩ := hmarks.head hrunning
      | delta hbody hd =>
        -- the bits are all set from here on, and the body is the one that was there
        exact (sound_marked_iff marked_dataBits).trans
          ⟨fun hw _ => hw, fun hw => hw ⟨rfl, _, _, hrunning⟩⟩
      | present hbody hm hd =>
        exact iff_of_true (sound_of_whole hbody) fun hmarks => by
          obtain ⟨_, _, ⟨⟩⟩ := hmarks.head hrunning
    · rename_i hrunning
      exact iff_of_true hs fun hmarks => by obtain ⟨_, _, ⟨⟩⟩ := hmarks.head hrunning
    · rename_i hrunning
      exact iff_of_true hs fun hmarks => by obtain ⟨_, _, ⟨⟩⟩ := hmarks.head hrunning

end PromoteState

/-- A cache from which calls may start: no files, a complete promote, or a body with the bits of what
has been fetched. A `.delta`, if there is one, has the delta section. -/
structure CacheStart (src : SegmentSource) where
  files : CacheFiles
  sound : PromoteState.Sound src files
  delta : ∀ bytes, files.delta = some bytes → bytes = src.deltaBytes

namespace CacheStart

open PromoteState

/-- **The bits are right exactly when `.present` is put beside a whole body.** Over every run of
calls that crash at any rename and are tried again, every set bit has its bytes and every call that
returns leaves a complete cache form, if and only if each rename of `.present` finds a `.body` that
already has the bytes of every Data entry. -/
theorem present_sound_iff {src : SegmentSource} (start : CacheStart src) (as : List PromoteAct) :
    Run.Always (step src) (Right src) ⟨start.files, none⟩ as ↔
      Run.Each (step src) (fun s a => MarksNext s a → src.Whole s.files.body)
        ⟨start.files, none⟩ as := by
  have hok : Ok src ⟨start.files, none⟩ := ⟨start.delta, fun _ hr => by cases hr⟩
  refine Run.always_iff_each (I := Ok src) (L := fun _ _ => True) (fun s a hI _ => hI.step a)
    (fun s a hI _ hP => right_step_iff hI a hP) hok ((right_iff hok).mpr start.sound)
    (Run.each_of_forall (fun _ _ => trivial) _ _)

namespace PartialBody

/-- Two Data entries of one byte each. -/
def source : SegmentSource where
  entries := [{ hash := 1, startLba := 0, lbaLength := 1, kind := .data, storedLength := 1 },
    { hash := 2, startLba := 1, lbaLength := 1, kind := .data, storedOffset := 1, storedLength := 1 }]
  bodyLength := 2
  deltaLength := 0
  rest := [11, 22]

/-- The first has been fetched. -/
def fetched : CacheStart source where
  files := ⟨some [11], some [1], none⟩
  sound := by
    intro i entry hi hdata hbit
    match i, hi with
    | 0, hi =>
      obtain rfl := Option.some.inj hi
      intro j h₁ h₂
      obtain rfl : j = 0 := by
        simp at h₂
        omega
      rfl
    | 1, hi => cases hbit
  delta bytes h := by cases h

end PartialBody

open PartialBody in
/-- **A retry that returns over a partial body.** A crash between the renames of `.present` and
`.body` leaves the fetched body with all bits set. The next call takes this for a complete promote and
returns, with the second entry in no file of the cache. -/
theorem retry_keeps_partial_body :
    let s := [.call, .proceed, .crash, .call].foldl (step source) ⟨fetched.files, none⟩
    s.running = some [] ∧ s.files.body = some [11] ∧ s.files.bit 1 = true ∧
      ¬ Complete source s.files := by
  refine ⟨rfl, rfl, rfl, ?_⟩
  rintro ⟨-, hwhole, -⟩
  have hsecond := hwhole _ (mem_cons_of_mem _ mem_cons_self) rfl 1 le_rfl (by decide)
  cases hsecond

end CacheStart

end Elide
