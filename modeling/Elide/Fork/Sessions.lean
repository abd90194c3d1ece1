import Elide.LbaMap.Compaction
import Elide.Volume.RecoveryReads

/-!
# A fork over its ancestors

A fork's own segments are the last layer of a rebuild, over the layers of its ancestors. A rebuild
does not prefer the last layer: a claim is admitted by ULID, against whatever the layers before have
left. The ancestors' ULIDs were minted on other hosts. The fork's mint never goes back behind the
fork's own files, but nothing makes it start beyond the ancestors' ones.

Sessions are taken one after another. Guest writes go to the WAL, a promote turns it into a segment,
a compaction plans an output, applies it and deletes its inputs, and a reopen seeds the mint from the
files and forgets the plans. The wall clock is asked at every mint and may answer anything: a clock
is here any sequence of ULIDs.

Within the fork's own layer, compaction has a condition of its own for a rebuild to agree with the
live map (`Compacting.Settles`). A flush always meets it, since the mint goes up.

## Main results

* `ForkSession.own_writes_win_iff`: every rebuild gives the fork's blocks to the fork and the others
  to the ancestors, exactly when every promote mints beyond the ancestor segment that holds each
  block it claims, and every apply settles. Then an open reads the last write.
* `ForkSession.ancestor_returns`: a fork on a host whose clock is behind.
-/

namespace Elide

open List LbaMapBuilder SegmentFile LbaMap Compacting

/-- The layers of the ancestors, oldest first, each up to the branch point. -/
structure Ancestry where
  layers : List (List SegmentFile)
  fits : ∀ layer ∈ layers, ∀ seg ∈ layer, ∀ e ∈ seg.entries, LbaMap.EntryFits e

/-- A fork in the course of its sessions. -/
structure ForkSession where
  /-- The fork's own segments, and what is live of them. -/
  own : Compacting
  wal : Option WalFile
  /-- The writes that have been promoted, newest first. -/
  promoted : List GuestWrite
  mint : UlidMint

namespace ForkSession

/-- What happens to a fork. -/
inductive Action where
  | write (record : LogRecord)
  | promote (entries : List SegmentEntry)
  | plan (inputs : List Ulid) (entries : List SegmentEntry)
  | apply (output : SegmentFile)
  | delete (ulid : Ulid)
  | reopen

/-- A fork nobody has written to. -/
def init : ForkSession := ⟨.init, none, [], ⟨0, 0⟩⟩

/-- The writes of the WAL, oldest first. -/
def walWrites (s : ForkSession) : List GuestWrite := (s.wal.map WalFile.writes).getD []

/-- The floor an open seeds the mint with, from the fork's own segments and WAL. -/
def mintFloor (s : ForkSession) : Ulid := (⟨s.own.disk, s.wal.toList⟩ : Disk).mintFloor

variable (clock : ℕ → Ulid)

/-- The next ULID. -/
def nextUlid (s : ForkSession) : Ulid := (s.mint.next clock).1

/-- One action. -/
def step (s : ForkSession) : Action → ForkSession
  | .write record =>
    match s.wal with
    | some wal => { s with wal := some { wal with records := wal.records ++ [record] } }
    | none => { s with wal := some ⟨s.nextUlid clock, [record]⟩, mint := (s.mint.next clock).2 }
  | .promote entries =>
    { own := s.own.step (.flush (s.nextUlid clock) entries)
      wal := none
      promoted := s.walWrites.reverse ++ s.promoted
      mint := (s.mint.next clock).2 }
  | .plan inputs entries =>
    { s with
      own := s.own.step (.plan ⟨s.nextUlid clock, inputs, entries⟩)
      mint := (s.mint.next clock).2 }
  | .apply output => { s with own := s.own.step (.apply output) }
  | .delete ulid => { s with own := s.own.step (.delete ulid) }
  | .reopen =>
    -- from here on every ULID up to the floor counts as minted, and no other
    { s with
      own := { s.own with planned := [], minted := Finset.range (s.mintFloor + 1) }
      mint := ⟨s.mintFloor, s.mint.ticks⟩ }

/-- Records fit, the segment of a promote claims what the WAL has written, and a plan carries what
its inputs hold. -/
def Legal (s : ForkSession) : Action → Prop
  | .write record => record.Fits
  | .promote entries => (∀ e ∈ entries, LbaMap.EntryFits e) ∧
      ∀ x, (((⟨s.nextUlid clock, [], entries⟩ : SegmentFile).claim x).map fun v => (v.1, v.2.1)) =
        lastWrite s.walWrites.reverse x
  | .plan inputs entries => (∀ e ∈ entries, LbaMap.EntryFits e) ∧
      (∀ i ∈ inputs, ∃ seg ∈ s.own.disk, seg.ulid = i) ∧
      Compacting.Carries s.own.live ⟨s.nextUlid clock, inputs, entries⟩
  | .apply output => output ∈ s.own.planned
  | .delete _ => True
  | .reopen => True

/-- A rebuild gives each block that the fork has claimed to the segment that holds it, whatever part
of the fork's files is there with it, and every other block as the ancestors have it. -/
def Wins (anc : Ancestry) (s : ForkSession) : Prop :=
  ∀ x, ∀ part ⊆ s.own.kept, (∀ w ∈ part, s.own.Holds w x →
      (buildLayers (anc.layers ++ [part])).lookupWithClaimant x = s.own.live.lookupWithClaimant x) ∧
    (s.own.live.lookupWithClaimant x = none →
      (buildLayers (anc.layers ++ [part])).lookupWithClaimant x =
        (buildLayers anc.layers).lookupWithClaimant x)

/-- A promote mints beyond who holds the blocks it writes, and an apply settles. -/
def Rises (anc : Ancestry) (s : ForkSession) : Action → Prop
  | .promote _ => ∀ x, (lastWrite s.walWrites.reverse x).isSome = true →
      ∀ a, holder anc.layers x = some a → a.ulid ≤ s.nextUlid clock
  | .apply output => s.own.Settles (.apply output)
  | _ => True

/-- What an open reads: a rebuild of the layers, with the WAL replayed over it. -/
def opened (anc : Ancestry) (s : ForkSession) (index : ExtentIndex) (journal : JournalRanges) :
    LbaMap :=
  let m := buildLayers (anc.layers ++ [s.own.disk])
  match s.wal with
  | some wal => (replayWalRecords wal ⟨m, index⟩ journal).1.lbamap
  | none => m

end ForkSession

/-! ## A fork's own layer -/

namespace Compacting

/-- What holds in addition when every ULID is beyond those minted before. -/
structure Ascending (s : Compacting) : Prop where
  inputs : ∀ seg ∈ s.disk ++ s.planned, ∀ i ∈ seg.inputs, i < seg.ulid
  consumed : ∀ i ∈ s.consumed, ∃ seg ∈ s.kept, i < seg.ulid
  claimed : ∀ o ∈ s.planned, ∀ x, (o.claim x).isSome = true →
    (s.live.lookupWithClaimant x).isSome = true
  /-- What gives way to an output has its content. -/
  same : ∀ o ∈ s.planned, ∀ x v, s.live.lookupWithClaimant x = some v →
    o.Takes (consuming o) x v → (o.claim x).map (fun v => (v.1, v.2.1)) = some (v.1, v.2.1)

variable {s : Compacting}

theorem takes_consuming_iff {o : SegmentFile} {x : ℕ} {v : Hash × ℕ × Ulid} :
    o.Takes (consuming o) x v ↔ ∃ e ∈ o.entries, e.Claims x ∧
      (v.2.2 ∈ o.inputs ∨ v.2.2 = o.ulid ∨ v.1 = e.hash ∧ v.2.2 < o.ulid) := by
  simp [SegmentFile.Takes, consuming, Admission.admits, Blocking.blocks, or_assoc]

/-- What a plan carries is live, held by an input, with the same content. -/
theorem Carries.exists_live {m : LbaMap} {o : SegmentFile} (h : Carries m o) {x : ℕ}
    (hx : (o.claim x).isSome = true) : ∃ v, m.lookupWithClaimant x = some v ∧ v.2.2 ∈ o.inputs ∧
      (o.claim x).map (fun v => (v.1, v.2.1)) = some (v.1, v.2.1) := by
  have hc := h x
  obtain ⟨vo, hvo⟩ := Option.isSome_iff_exists.mp hx
  rw [hvo, Option.map_some, eq_comm, Option.bind_eq_some_iff] at hc
  obtain ⟨v, hv, hin⟩ := hc
  split_ifs at hin with hmem
  exact ⟨v, hv, hmem, by rw [hvo, Option.map_some, ← hin]⟩

/-- What gives way to an output is not beyond it. -/
theorem le_of_takes {o : SegmentFile} (ho : ∀ i ∈ o.inputs, i < o.ulid) {x : ℕ}
    {v : Hash × ℕ × Ulid} (h : o.Takes (consuming o) x v) : v.2.2 ≤ o.ulid := by
  obtain ⟨e, -, -, hin | heq | ⟨-, hlt⟩⟩ := takes_consuming_iff.mp h
  · exact (ho _ hin).le
  · exact heq.le
  · exact hlt.le

theorem ascending_init : init.Ascending :=
  ⟨by simp [init], by simp [init], by simp [init], by simp [init]⟩

theorem Ascending.flush (ha : s.Ascending) (h : s.Ok) {ulid : Ulid} {entries : List SegmentEntry}
    (hfits : ∀ e ∈ entries, LbaMap.EntryFits e) (hlt : ∀ u ∈ s.minted, u < ulid) :
    (s.step (.flush ulid entries)).Ascending := by
  obtain ⟨-, hlook⟩ := h.lookup_flush ulid hfits
  refine ⟨fun seg hseg i hi => ?_, fun i hi => ?_, fun o ho x hx => ?_, fun o ho x v hv htakes => ?_⟩
  · simp only [step, mem_append, mem_singleton] at hseg
    rcases hseg with (hseg | rfl) | hseg
    · exact ha.inputs seg (mem_append_left _ hseg) i hi
    · cases hi
    · exact ha.inputs seg (mem_append_right _ hseg) i hi
  · obtain ⟨seg, hseg, hlt'⟩ := ha.consumed i hi
    exact ⟨seg, (h.mem_kept_flush (fun hm => (hlt _ hm).false) entries seg).mpr (.inl hseg), hlt'⟩
  · rw [hlook, Option.isSome_or, ha.claimed o ho x hx, Bool.or_true]
  · rw [hlook, Option.or_eq_some_iff] at hv
    rcases hv with hv | ⟨-, hv⟩
    · -- the flush is beyond every plan
      have hle := le_of_takes (ha.inputs o (mem_append_right _ ho)) htakes
      rw [ulid_of_claim hv] at hle
      exact absurd hle (not_le.mpr (hlt _ (h.named.ulid o (mem_append_right _ ho))))
    · exact ha.same o ho x v hv htakes

variable {output : SegmentFile}

theorem Ascending.plan (ha : s.Ascending) (h : s.Ok) (hlegal : s.Legal (.plan output))
    (hlt : ∀ u ∈ s.minted, u < output.ulid) : (s.step (.plan output)).Ascending := by
  obtain ⟨-, -, hinputs, hcarries⟩ := hlegal
  have hmem : ∀ o, o ∈ (s.step (.plan output)).planned → o ∈ s.planned ∨ o = output := by
    intro o ho
    rcases mem_append.mp ho with ho | ho
    · exact .inl ho
    · exact .inr (mem_singleton.mp ho)
  refine ⟨fun seg hseg i hi => ?_, ha.consumed, fun o ho x hx => ?_, fun o ho x v hv htakes => ?_⟩
  · rcases mem_append.mp hseg with hseg | hseg
    · exact ha.inputs seg (mem_append_left _ hseg) i hi
    · rcases hmem seg hseg with hseg | rfl
      · exact ha.inputs seg (mem_append_right _ hseg) i hi
      · obtain ⟨t, ht, rfl⟩ := hinputs i hi
        exact hlt _ (h.named.ulid t (mem_append_left _ ht))
  · rcases hmem o ho with ho | rfl
    · exact ha.claimed o ho x hx
    · obtain ⟨v, hv, -⟩ := hcarries.exists_live hx
      exact Option.isSome_of_mem hv
  · rcases hmem o ho with ho | rfl
    · exact ha.same o ho x v hv htakes
    · obtain ⟨v', hv', -, hsame⟩ := hcarries.exists_live htakes.isSome_claim
      obtain rfl := Option.mem_unique hv hv'
      exact hsame

/-- An apply changes who holds a block, not what it holds. -/
theorem Ascending.lookup_apply (ha : s.Ascending) (h : s.Ok) (hout : output ∈ s.planned) (x : ℕ) :
    (s.step (.apply output)).live.lookup x = s.live.lookup x := by
  rw [lookup_eq_map, lookup_eq_map, (h.lookup_apply hout).2]
  split_ifs with htakes
  · obtain ⟨v, hv⟩ := Option.isSome_iff_exists.mp (ha.claimed output hout x htakes.1)
    rw [ha.same output hout x v hv (htakes.2 v hv), hv, Option.map_some]
  · rfl

theorem Ascending.apply (ha : s.Ascending) (h : s.Ok) (hout : output ∈ s.planned) :
    (s.step (.apply output)).Ascending := by
  obtain ⟨-, hlook⟩ := h.lookup_apply hout
  obtain ⟨hdisk, hcons, hnot⟩ := h.planned output hout
  have hmem := mem_kept_apply hcons (hnot output hout)
  have hplanned : ∀ o ∈ (s.step (.apply output)).planned, o ∈ s.planned ∧ o ≠ output := by
    simp [step]
  have hin := ha.inputs output (mem_append_right _ hout)
  refine ⟨fun seg hseg i hi => ?_, fun i hi => ?_, fun o ho x hx => ?_, fun o ho x v hv htakes => ?_⟩
  · exact ha.inputs seg (files_apply hout hseg) i hi
  · have hself := (hmem output).mpr (.inr rfl)
    rcases Finset.mem_union.mp hi with hi | hi
    · obtain ⟨seg, hseg, hlt⟩ := ha.consumed i hi
      by_cases hconsumed : seg.ulid ∈ output.inputs
      · exact ⟨output, hself, hlt.trans (hin _ hconsumed)⟩
      · exact ⟨seg, (hmem seg).mpr (.inl ⟨hseg, hconsumed⟩), hlt⟩
    · exact ⟨output, hself, hin i (mem_toFinset.mp hi)⟩
  · have hsome := ha.claimed o (hplanned o ho).1 x hx
    rw [hlook]
    split_ifs with htakes
    · exact htakes.1
    · exact hsome
  · obtain ⟨ho, hne⟩ := hplanned o ho
    rw [hlook] at hv
    split_ifs at hv with htook
    · -- the block has come to the output, from `v'` with the same content
      obtain ⟨v', hv'⟩ := Option.isSome_iff_exists.mp (ha.claimed output hout x htook.1)
      have htook' := htook.2 v' hv'
      have hsame := ha.same output hout x v' hv' htook'
      rw [hv, Option.map_some, Option.some.injEq, Prod.mk.injEq] at hsame
      have hulid := ulid_of_claim hv
      obtain ⟨e, he, hc, hcase⟩ := takes_consuming_iff.mp htakes
      rw [hulid] at hcase
      have hlt : v.1 = e.hash ∧ output.ulid < o.ulid := by
        rcases hcase with hmem' | heq | hlt
        · exact absurd hmem' ((h.planned output hout).2.2 o ho)
        · exact absurd (h.named.distinct o (mem_append_right _ ho) output
            (mem_append_right _ hout) heq.symm) hne
        · exact hlt
      have hgives : o.Takes (consuming o) x v' := takes_consuming_iff.mpr ⟨e, he, hc,
        .inr (.inr ⟨hsame.1.symm.trans hlt.1, (le_of_takes hin htook').trans_lt hlt.2⟩)⟩
      rw [ha.same o ho x v' hv' hgives, hsame.1, hsame.2]
    · exact ha.same o ho x v hv htakes

theorem Ascending.delete (ha : s.Ascending) (ulid : Ulid) :
    (s.step (.delete ulid)).Ascending := by
  have hkept := kept_delete (s := s) ulid
  obtain ⟨disk, hdisk, heq⟩ := s.step_delete ulid
  rw [heq] at hkept ⊢
  exact ⟨fun seg hseg => ha.inputs seg ((hdisk.append_right _).subset hseg), hkept ▸ ha.consumed,
    ha.claimed, ha.same⟩

/-- A flush beyond all that was minted settles. -/
theorem Ascending.settles_flush (ha : s.Ascending) (h : s.Ok) {ulid : Ulid}
    {entries : List SegmentEntry} (hlt : ∀ u ∈ s.minted, u < ulid) :
    s.Settles (.flush ulid entries) := by
  intro x hx seg hseg hsx
  have hdisk := mem_append_left s.planned (mem_kept.mp hseg).1
  have hulid : seg.ulid < ulid := hlt _ (h.named.ulid seg hdisk)
  have hflush : (⟨ulid, [], entries⟩ : SegmentFile).isOutput = false := rfl
  rw [SegmentFile.Outranks]
  split_ifs with hbefore
  · exact (overrides_of_flush hflush hx hsx).mpr hulid.le
  · -- the other is an output, and its horizon is below
    intro hover
    obtain ⟨v, hv⟩ := Option.isSome_iff_exists.mp hx
    obtain ⟨e, -, -, hadmits⟩ := hover v hv
    have hv' := ulid_of_claim hv
    cases hmax : seg.inputs.max? with
    | none =>
      have hout : seg.isOutput = false := by rw [isOutput, hmax]; rfl
      exact hbefore (.inl ⟨hout.trans hflush.symm, hulid⟩)
    | some horizon =>
      have hhorizon := ha.inputs seg hdisk horizon (List.max?_mem hmax)
      simp only [admission, hmax, Admission.admits, Blocking.blocks, hv',
        Bool.not_not, Bool.or_eq_true, decide_eq_true_eq, Bool.and_eq_true] at hadmits
      rcases hadmits with (hle | heq) | ⟨-, hlt'⟩
      · exact absurd (hle.trans_lt hhorizon) hulid.asymm
      · exact absurd heq hulid.ne'
      · exact absurd hlt' hulid.asymm

end Compacting

/-! ## Over the ancestors -/

namespace ForkSession

variable {clock : ℕ → Ulid} {anc : Ancestry} {s : ForkSession}

/-- What holds along every run. -/
structure Ok (s : ForkSession) : Prop where
  own : s.own.Ok
  ascending : s.own.Ascending
  minted : ∀ u ∈ s.own.minted, u ≤ s.mint.last
  content : ∀ x, s.own.live.lookup x = lastWrite s.promoted x
  wal : ∀ wal, s.wal = some wal → ∀ r ∈ wal.records, r.Fits

theorem ok_init : init.Ok where
  own := Compacting.ok_init
  ascending := Compacting.ascending_init
  minted := by simp [init, Compacting.init]
  content x := by
    rw [lookup_eq_map]
    simp [init, Compacting.init, lastWrite, ← value_tiles, tiles_new]
  wal := by simp [init]

theorem last_lt_nextUlid (clock : ℕ → Ulid) (s : ForkSession) : s.mint.last < s.nextUlid clock :=
  (s.mint.lt_next clock).1

theorem Ok.lt_nextUlid (h : s.Ok) (clock : ℕ → Ulid) : ∀ u ∈ s.own.minted, u < s.nextUlid clock :=
  fun u hu => (h.minted u hu).trans_lt (last_lt_nextUlid clock s)

theorem Ok.le_nextUlid (h : s.Ok) (clock : ℕ → Ulid) {u : Ulid}
    (hu : u ∈ insert (s.nextUlid clock) s.own.minted) : u ≤ s.nextUlid clock := by
  rcases Finset.mem_insert.mp hu with rfl | hu
  · exact le_rfl
  · exact (h.lt_nextUlid clock u hu).le

variable {entries : List SegmentEntry}

theorem Ok.legal_flush (h : s.Ok) (hlegal : s.Legal clock (.promote entries)) :
    s.own.Legal (.flush (s.nextUlid clock) entries) :=
  ⟨fun hmem => (h.lt_nextUlid clock _ hmem).false, hlegal.1⟩

theorem Ok.legal_plan (h : s.Ok) {inputs : List Ulid}
    (hlegal : s.Legal clock (.plan inputs entries)) :
    s.own.Legal (.plan ⟨s.nextUlid clock, inputs, entries⟩) :=
  ⟨fun hmem => (h.lt_nextUlid clock _ hmem).false, hlegal.1, hlegal.2.1, hlegal.2.2⟩

theorem Ok.write (h : s.Ok) {record : LogRecord} (hlegal : s.Legal clock (.write record)) :
    (s.step clock (.write record)).Ok := by
  rw [step]
  split
  · rename_i wal hwal
    refine ⟨h.own, h.ascending, h.minted, h.content, fun wal' hwal' => ?_⟩
    obtain rfl := Option.some.inj hwal'
    exact forall_mem_append.mpr ⟨h.wal wal hwal, forall_mem_singleton.mpr hlegal⟩
  · refine ⟨h.own, h.ascending, fun u hu => (h.lt_nextUlid clock u hu).le, h.content,
      fun wal' hwal' r hr => ?_⟩
    obtain rfl := Option.some.inj hwal'
    exact mem_singleton.mp hr ▸ hlegal

theorem Ok.promote (h : s.Ok) (hlegal : s.Legal clock (.promote entries)) :
    (s.step clock (.promote entries)).Ok where
  own := h.own.flush (h.legal_flush hlegal)
  ascending := h.ascending.flush h.own hlegal.1 (h.lt_nextUlid clock)
  minted u hu := h.le_nextUlid clock hu
  content x := by
    change (s.own.step (.flush (s.nextUlid clock) entries)).live.lookup x = _
    rw [lookup_eq_map, (h.own.lookup_flush _ hlegal.1).2, Option.map_or, hlegal.2,
      ← lookup_eq_map, h.content]
    exact (lastWrite_append _ _ x).symm
  wal := by simp [step]

theorem Ok.reopen (h : s.Ok) : (s.step clock .reopen).Ok := by
  have hfloor : ∀ seg ∈ s.own.disk, seg.ulid ∈ Finset.range (s.mintFloor + 1) := fun seg hseg =>
    Finset.mem_range_succ_iff.mpr (Disk.le_mintFloor ⟨s.own.disk, s.wal.toList⟩ hseg)
  have hbelow : ∀ seg ∈ s.own.disk, ∀ i < seg.ulid, i ∈ Finset.range (s.mintFloor + 1) :=
    fun seg hseg i hi => Finset.mem_range.mpr (hi.trans (Finset.mem_range.mp (hfloor seg hseg)))
  have hdisk : ∀ seg, seg ∈ s.own.disk ++ [] → seg ∈ s.own.disk ++ s.own.planned := by
    intro seg hseg
    rw [append_nil] at hseg
    exact mem_append_left _ hseg
  refine ⟨⟨h.own.inv, ⟨fun seg hseg => h.own.named.fits seg (hdisk seg hseg),
      fun a ha b hb => h.own.named.distinct a (hdisk a ha) b (hdisk b hb), fun seg hseg => ?_,
      fun seg hseg i hi => ?_⟩, fun i hi => ?_, by simp [step], h.own.held, h.own.claimed,
      by simp [step]⟩,
    ⟨fun seg hseg => h.ascending.inputs seg (hdisk seg hseg), h.ascending.consumed, by simp [step],
      by simp [step]⟩,
    fun u hu => Finset.mem_range_succ_iff.mp hu, h.content, h.wal⟩
  · exact hfloor seg (append_nil s.own.disk ▸ hseg)
  · exact hbelow seg (append_nil s.own.disk ▸ hseg) i (h.ascending.inputs seg (hdisk seg hseg) i hi)
  · obtain ⟨seg, hseg, hlt⟩ := h.ascending.consumed i hi
    exact hbelow seg (mem_kept.mp hseg).1 i hlt

theorem Ok.step (h : s.Ok) (a : Action) (hlegal : s.Legal clock a) : (s.step clock a).Ok := by
  cases a with
  | write record => exact h.write hlegal
  | promote entries => exact h.promote hlegal
  | plan inputs entries =>
    have hown := h.legal_plan hlegal
    exact ⟨h.own.plan hown, h.ascending.plan h.own hown (h.lt_nextUlid clock),
      fun u hu => h.le_nextUlid clock hu, h.content, h.wal⟩
  | apply output =>
    exact ⟨h.own.apply hlegal, h.ascending.apply h.own hlegal, h.minted,
      fun x => (h.ascending.lookup_apply h.own hlegal x).trans (h.content x), h.wal⟩
  | delete ulid =>
    obtain ⟨disk, -, heq⟩ := s.own.step_delete ulid
    refine ⟨h.own.delete ulid, h.ascending.delete ulid, ?_, ?_, h.wal⟩
    · rw [ForkSession.step, heq]
      exact h.minted
    · rw [ForkSession.step, heq]
      exact h.content
  | reopen => exact h.reopen

/-! ### Who holds a block -/

/-- On the blocks it claims, the segment takes the place of whoever held them, and is not below. -/
def Above (anc : Ancestry) (seg : SegmentFile) : Prop :=
  ∀ x, (seg.claim x).isSome = true → ∀ a, holder anc.layers x = some a →
    seg.Overrides a x ∧ a.ulid ≤ seg.ulid

/-- All segments of the fork, planned ones included, are above the ancestors. -/
def AllAbove (anc : Ancestry) (s : ForkSession) : Prop :=
  ∀ seg ∈ s.own.disk ++ s.own.planned, Above anc seg

variable {part : List SegmentFile}

section

variable (hpart : ∀ seg ∈ part, ∀ e ∈ seg.entries, LbaMap.EntryFits e)
include hpart

theorem fits_layers :
    ∀ layer ∈ anc.layers ++ [part], ∀ seg ∈ layer, ∀ e ∈ seg.entries, LbaMap.EntryFits e :=
  forall_mem_append.mpr ⟨anc.fits, forall_mem_singleton.mpr hpart⟩

/-- Where no segment of the part claims the block, the ancestors answer. -/
theorem lookup_of_unclaimed {x : ℕ} (hnone : ∀ seg ∈ part, seg.claim x = none) :
    (buildLayers (anc.layers ++ [part])).lookupWithClaimant x =
      (buildLayers anc.layers).lookupWithClaimant x := by
  rw [lookup_buildLayers (fits_layers hpart),
    holder_append_of_none hnone, lookup_buildLayers anc.fits]

/-- Where one does, and all that do are above the ancestors, the part answers alone. -/
theorem lookup_of_above {x : ℕ} (hclaims : ∃ seg ∈ part, (seg.claim x).isSome = true)
    (habove : ∀ seg ∈ part, Above anc seg) :
    (buildLayers (anc.layers ++ [part])).lookupWithClaimant x =
      (build part).lookupWithClaimant x := by
  have hover : ∀ seg ∈ part, (seg.claim x).isSome = true →
      ∀ a, holder anc.layers x = some a → seg.Overrides a x :=
    fun seg hseg hx a ha => (habove seg hseg x hx a ha).1
  rw [lookup_buildLayers (fits_layers hpart), holder_append_of_overrides hclaims hover,
    ← buildLayers_singleton, lookup_buildLayers]
  intro layer hlayer
  exact mem_singleton.mp hlayer ▸ hpart

end

theorem Ok.wins_iff (h : s.Ok) (habove : s.AllAbove anc) : s.Wins anc ↔ s.own.Agrees := by
  have hfits : ∀ {part}, part ⊆ s.own.kept → ∀ seg ∈ part, ∀ e ∈ seg.entries, LbaMap.EntryFits e :=
    fun hpart seg hseg => h.own.kept_named.fits seg (hpart hseg)
  have hlayered : ∀ {x w part}, part ⊆ s.own.kept → w ∈ part → s.own.Holds w x →
      (buildLayers (anc.layers ++ [part])).lookupWithClaimant x =
        (build part).lookupWithClaimant x := by
    intro x w part hpart hw hholds
    refine lookup_of_above (hfits hpart) ⟨w, hw, hholds.1⟩ fun seg hseg => habove seg ?_
    exact mem_append_left _ (mem_kept.mp (hpart hseg)).1
  constructor
  · intro hwins x w hw hholds part hpart hmem
    rw [← hlayered hpart hmem hholds]
    exact (hwins x part hpart).1 w hmem hholds
  · intro hagrees x part hpart
    refine ⟨fun w hmem hholds => ?_, fun hnone => ?_⟩
    · rw [hlayered hpart hmem hholds]
      exact hagrees x w (hpart hmem) hholds part hpart hmem
    · refine lookup_of_unclaimed (hfits hpart) fun seg hseg => ?_
      rw [← Option.not_isSome_iff_eq_none]
      intro hx
      have hsome := h.own.claimed seg (mem_kept.mp (hpart hseg)).1 x hx
      rw [hnone] at hsome
      cases hsome

end ForkSession

namespace ForkSession

variable {clock : ℕ → Ulid} {anc : Ancestry} {s : ForkSession} {entries : List SegmentEntry}

/-- A promote claims the blocks of the WAL. -/
theorem isSome_claim_promote (hlegal : s.Legal clock (.promote entries)) (x : ℕ) :
    ((⟨s.nextUlid clock, [], entries⟩ : SegmentFile).claim x).isSome = true ↔
      (lastWrite s.walWrites.reverse x).isSome = true := by
  rw [← hlegal.2 x, Option.isSome_map]

/-- A new flush that does not rise leaves the block to the ancestor. -/
theorem holder_of_below {seg a : SegmentFile} (hseg : seg.isOutput = false) {x : ℕ}
    (hx : (seg.claim x).isSome = true) (ha : holder anc.layers x = some a)
    (hlt : seg.ulid < a.ulid) : holder (anc.layers ++ [[seg]]) x = some a := by
  rw [holder_append, ha]
  refine Duel.standing_keeps fun b hb => .inr ?_
  obtain rfl := mem_singleton.mp (mem_order.mp (mem_filter.mp hb).1)
  rw [overrides_of_flush hseg hx (isSome_claim_of_holder ha)]
  exact not_le.mpr hlt

theorem Ok.rises_of_wins (h : s.Ok) (hlegal : s.Legal clock (.promote entries))
    (hwins : (s.step clock (.promote entries)).Wins anc) :
    s.Rises clock anc (.promote entries) := by
  intro x hx a ha
  rw [← isSome_claim_promote hlegal] at hx
  by_contra hle
  have hkept : [⟨s.nextUlid clock, [], entries⟩] ⊆ (s.step clock (.promote entries)).own.kept :=
    fun t ht => (h.own.mem_kept_flush (h.legal_flush hlegal).1 entries t).mpr
      (.inr (mem_singleton.mp ht))
  have hlive : (s.step clock (.promote entries)).own.live.lookupWithClaimant x =
      (⟨s.nextUlid clock, [], entries⟩ : SegmentFile).claim x :=
    ((h.own.lookup_flush _ hlegal.1).2 x).trans (Option.or_of_isSome hx)
  have hlook := (hwins x _ hkept).1 _ (mem_singleton_self _) ⟨hx, hlive⟩
  rw [hlive, lookup_buildLayers (fits_layers fun seg hseg =>
    mem_singleton.mp hseg ▸ hlegal.1), holder_of_below rfl hx ha (not_le.mp hle)] at hlook
  -- so the claimant would be both
  obtain ⟨v, hv⟩ := Option.isSome_iff_exists.mp hx
  exact hle ((ulid_of_claim (hlook.trans hv)).symm.trans (ulid_of_claim hv)).le

theorem AllAbove.promote (habove : s.AllAbove anc) (hlegal : s.Legal clock (.promote entries))
    (hrises : s.Rises clock anc (.promote entries)) :
    (s.step clock (.promote entries)).AllAbove anc := by
  intro seg hseg
  simp only [step, Compacting.step, mem_append, mem_singleton] at hseg
  rcases hseg with (hseg | rfl) | hseg
  · exact habove seg (mem_append_left _ hseg)
  · intro x hx a ha
    have hle := hrises x ((isSome_claim_promote hlegal x).mp hx) a ha
    exact ⟨(overrides_of_flush rfl hx (isSome_claim_of_holder ha)).mpr hle, hle⟩
  · exact habove seg (mem_append_right _ hseg)

/-- An output takes the place of whoever is not beyond one of its inputs. -/
theorem overrides_of_input {o a : SegmentFile} {x i : ℕ} (hx : (o.claim x).isSome = true)
    (hi : i ∈ o.inputs) (hle : a.ulid ≤ i) : o.Overrides a x := by
  intro v hv
  obtain ⟨e, he, hc⟩ := isSome_claim_iff.mp hx
  refine ⟨e, he, hc, ?_⟩
  obtain ⟨horizon, hmax⟩ := Option.isSome_iff_exists.mp (isSome_max?_of_mem hi)
  have hbelow : v.2.2 ≤ horizon :=
    (ulid_of_claim hv).le.trans (hle.trans ((List.max?_eq_some_iff.mp hmax).2 i hi))
  simp [admission, hmax, Admission.admits, Blocking.blocks, hbelow]

theorem AllAbove.plan (habove : s.AllAbove anc) (h : s.Ok) {inputs : List Ulid}
    (hlegal : s.Legal clock (.plan inputs entries)) :
    (s.step clock (.plan inputs entries)).AllAbove anc := by
  obtain ⟨-, -, hcarries⟩ := hlegal
  intro seg hseg
  simp only [step, Compacting.step, mem_append, mem_singleton] at hseg
  rcases hseg with hseg | hseg | rfl
  · exact habove seg (mem_append_left _ hseg)
  · exact habove seg (mem_append_right _ hseg)
  · intro x hx a ha
    -- the block is held by an input, which is above
    obtain ⟨v, hv, hmem, -⟩ := hcarries.exists_live hx
    obtain ⟨w, hw, hclaim⟩ := h.own.held x v hv
    have hdisk := mem_append_left s.own.planned (Compacting.mem_kept.mp hw).1
    obtain ⟨-, hle⟩ := habove w hdisk x (Option.isSome_of_mem hclaim) a ha
    rw [← ulid_of_claim hclaim] at hle
    refine ⟨overrides_of_input hx hmem hle, hle.trans ?_⟩
    rw [ulid_of_claim hclaim]
    exact (h.lt_nextUlid clock _ (h.own.named.ulid w hdisk)).le

theorem AllAbove.apply (habove : s.AllAbove anc) {output : SegmentFile}
    (hout : output ∈ s.own.planned) : (s.step clock (.apply output)).AllAbove anc :=
  fun seg hseg => habove seg (files_apply hout hseg)

theorem AllAbove.step (habove : s.AllAbove anc) (h : s.Ok) {a : Action} (hlegal : s.Legal clock a)
    (hrises : s.Rises clock anc a) : (s.step clock a).AllAbove anc := by
  cases a with
  | write record =>
    rw [ForkSession.step]
    split <;> exact habove
  | promote entries => exact habove.promote hlegal hrises
  | plan inputs entries => exact habove.plan h hlegal
  | apply output => exact habove.apply hlegal
  | delete ulid =>
    obtain ⟨disk, hdisk, heq⟩ := s.own.step_delete ulid
    rw [ForkSession.step, heq]
    exact fun seg hseg => habove seg ((hdisk.append_right _).subset hseg)
  | reopen =>
    intro seg hseg
    refine habove seg (mem_append_left _ ?_)
    simpa [ForkSession.step] using hseg

/-- One step keeps the fork's blocks exactly if it rises. -/
theorem Ok.wins_step_iff (h : s.Ok) {a : Action} (hlegal : s.Legal clock a) (hwins : s.Wins anc)
    (habove : s.AllAbove anc) : (s.step clock a).Wins anc ↔ s.Rises clock anc a := by
  have hagrees := (h.wins_iff habove).mp hwins
  cases a with
  | promote entries =>
    refine ⟨h.rises_of_wins hlegal, fun hrises => ?_⟩
    refine ((h.promote hlegal).wins_iff (habove.promote hlegal hrises)).mpr ?_
    exact (h.own.agrees_step_iff _ (h.legal_flush hlegal) hagrees).mpr
      (h.ascending.settles_flush h.own (h.lt_nextUlid clock))
  | apply output =>
    have hstep := (h.step (.apply output) hlegal).wins_iff (habove.apply hlegal)
    exact hstep.trans (h.own.agrees_step_iff (.apply output) hlegal hagrees)
  | write record =>
    refine iff_of_true ?_ trivial
    rw [ForkSession.step]
    split <;> exact hwins
  | plan | reopen => exact iff_of_true hwins trivial
  | delete ulid =>
    refine iff_of_true ?_ trivial
    refine ((h.step (.delete ulid) hlegal).wins_iff (habove.step h hlegal trivial)).mpr ?_
    exact (h.own.agrees_step_iff (.delete ulid) trivial hagrees).mpr trivial

end ForkSession

namespace ForkSession

variable {clock : ℕ → Ulid} {anc : Ancestry} {s : ForkSession}

/-- Once the inputs of the applied outputs are gone, an open reads the last write of the fork, and
elsewhere what the ancestors have. -/
theorem Ok.lookup_opened (h : s.Ok) (hwins : s.Wins anc) (hsettled : s.own.Settled)
    (index : ExtentIndex) (journal : JournalRanges) (x : ℕ) :
    (s.opened anc index journal).lookup x = (lastWrite (s.walWrites.reverse ++ s.promoted) x).or
        ((buildLayers anc.layers).lookup x) := by
  have hdisk : s.own.disk ⊆ s.own.kept := fun t ht => mem_kept.mpr ⟨ht, hsettled t ht⟩
  have hfits : ∀ seg ∈ s.own.disk, ∀ e ∈ seg.entries, LbaMap.EntryFits e := fun seg hseg =>
    h.own.kept_named.fits seg (hdisk hseg)
  have hrebuilt : (buildLayers (anc.layers ++ [s.own.disk])).lookup x =
      (lastWrite s.promoted x).or ((buildLayers anc.layers).lookup x) := by
    rw [← h.content, lookup_eq_map, lookup_eq_map, lookup_eq_map]
    cases hx : s.own.live.lookupWithClaimant x with
    | none => rw [(hwins x _ hdisk).2 hx, Option.map_none, Option.none_or]
    | some v =>
      obtain ⟨w, hw, hclaim⟩ := h.own.held x v hx
      have hlook := (hwins x _ hdisk).1 w (mem_kept.mp hw).1
        ⟨Option.isSome_of_mem hclaim, hx.trans hclaim.symm⟩
      rw [hlook, hx, Option.map_some, Option.some_or]
  rw [lastWrite_append, Option.or_assoc, ← hrebuilt, opened, walWrites]
  cases hwal : s.wal with
  | none => simp [lastWrite]
  | some wal =>
    have hinv := inv_buildLayers (@fits_layers anc _ hfits)
    exact (replayWalRecords_spec (m := ⟨_, index⟩) hinv (h.wal wal hwal) journal).2 x

/-- **A fork's writes win exactly when its mint is beyond the ancestors.** Over every run of sessions
on any clock: every rebuild gives the fork's blocks to the fork's segments, and the others to the
ancestors, if and only if every promote mints beyond the ancestor segment that holds each block it
writes, and every apply of an output settles. Along such runs an open reads the fork's last write, or
else what the ancestors have, once the inputs of the outputs are gone. -/
theorem own_writes_win_iff (anc : Ancestry) (clock : ℕ → Ulid) {as : List Action}
    (hlegal : Run.Each (step clock) (Legal clock) init as) :
    (Run.Always (step clock) (Wins anc) init as ↔ Run.Each (step clock) (Rises clock anc) init as) ∧
      (Run.Each (step clock) (Rises clock anc) init as →
        Run.Always (step clock) (fun s => s.own.Settled → ∀ index journal x,
          (s.opened anc index journal).lookup x =
            (lastWrite (s.walWrites.reverse ++ s.promoted) x).or
              ((buildLayers anc.layers).lookup x)) init as) := by
  have habove : init.AllAbove anc := by simp [AllAbove, init, Compacting.init]
  have hwins : init.Wins anc := (ok_init.wins_iff habove).mpr fun x w hw => by
    simp [Compacting.kept, init, Compacting.init] at hw
  have hiff := Run.always_iff_each_of_keeps (I := Ok) (P := Wins anc) (Q := AllAbove anc)
    (fun s a hs ha => hs.step a ha) (fun s a hs ha hP hQ => hs.wins_step_iff ha hP hQ)
    (fun s a hs ha _ hQ hC => hQ.step hs ha hC) ok_init hwins habove hlegal
  refine ⟨hiff, fun heach => ?_⟩
  have hok := Run.always_of_each (fun s a (hs : s.Ok) ha => hs.step a ha) ok_init hlegal
  exact (hok.and (hiff.mpr heach)).mono fun s hs => hs.1.lookup_opened hs.2

/-! ## A clock that is behind -/

namespace ClockBehind

/-- One block at LBA 0. -/
def entry (hash : Hash) : SegmentEntry where
  hash := hash
  startLba := 0
  lbaLength := 1
  kind := .data

/-- One ancestor, with a segment of ULID 100 that has block 0. -/
def ancestry : Ancestry where
  layers := [[⟨100, [], [entry 1]⟩]]
  fits := by decide

/-- A write of block 0, its promote, and the next open. -/
def session : List Action := [.write (.data 2 0 1 .none 0 1), .promote [entry 2], .reopen]

theorem claim_entry (u : Ulid) (hash : Hash) (x : ℕ) :
    (⟨u, [], [entry hash]⟩ : SegmentFile).claim x = if x = 0 then some (hash, 0, u) else none := by
  by_cases hx : x = 0
  · subst hx
    rfl
  · have hclaims : ¬ (entry hash).Claims x := by
      rintro ⟨-, h₁, h₂⟩
      simp only [entry] at h₁ h₂
      omega
    simp [claim, lastClaim, hclaims, hx]

theorem legal_session (clock : ℕ → Ulid) : Run.Each (step clock) (Legal clock) init session := by
  refine ⟨⟨by decide, by decide, by decide⟩, ⟨by decide, fun x => ?_⟩, trivial, trivial⟩
  rw [claim_entry]
  by_cases hx : x = 0
  · subst hx
    rfl
  · simp [lastWrite, walWrites, step, init, WalFile.writes, LogRecord.write, hx]

/-- With a clock that is ahead of the ancestor the promote rises. -/
theorem rises_session : Run.Each (step fun _ => 200) (Rises (fun _ => 200) ancestry) init session := by
  refine ⟨trivial, fun x _ a ha => ?_, trivial, trivial⟩
  rcases Duel.mem_of_standing ha with h | h
  · cases h
  · have hmem : a = ⟨100, [], [entry 1]⟩ := by
      simpa [ancestry, mem_order] using (mem_filter.mp h).1
    rw [hmem]
    decide

end ClockBehind

open ClockBehind in
/-- The theorem on a host whose clock is ahead: the sessions are legal and rise, so the fork's write
of block 0 is what the next open reads. -/
theorem own_write_wins_ahead : Run.Always (step fun _ => 200) (Wins ancestry) init session ∧
      Run.Always (step fun _ => 200) (fun s => s.own.Settled → ∀ index journal x,
        (s.opened ancestry index journal).lookup x =
          (lastWrite (s.walWrites.reverse ++ s.promoted) x).or
            ((buildLayers ancestry.layers).lookup x)) init session :=
  have h := own_writes_win_iff ancestry (fun _ => 200) (legal_session fun _ => 200)
  ⟨h.1.mpr rises_session, h.2 rises_session⟩

open ClockBehind in
/-- **An ancestor's claim returns.** On a host whose clock offers ULID 5 the fork writes block 0 and
promotes the write. The next open gives the block to the ancestor again. -/
theorem ancestor_returns : Run.Each (step fun _ => 5) (Legal fun _ => 5) init session ∧
      lastWrite (session.foldl (step fun _ => 5) init).promoted 0 = some (2, 0) ∧
      ∀ index journal, ((session.foldl (step fun _ => 5) init).opened ancestry index journal).lookup 0 =
        some (1, 0) := by
  refine ⟨legal_session _, rfl, fun index journal => ?_⟩
  have hopened : (session.foldl (step fun _ => 5) init).opened ancestry index journal =
      buildLayers (ancestry.layers ++ [[⟨6, [], [entry 2]⟩]]) := rfl
  have hold : holder ancestry.layers 0 = some ⟨100, [], [entry 1]⟩ := by
    rw [show ancestry.layers = [[⟨100, [], [entry 1]⟩]] from rfl, holder_singleton,
      order_of_flush (by decide)]
    rfl
  rw [hopened, lookup_eq_map,
    lookup_buildLayers (fits_layers (by decide)), holder_of_below rfl rfl hold (by decide)]
  rfl

end ForkSession

end Elide
