import Elide.LbaMap.RebuildWinner
import Elide.Lib.Run

/-!
# Flushes and compactions

A flush adds a segment and claims its blocks in the live map without asking. A compaction plans its
output from a view of the live map: exactly the claims of its inputs that are live there. Later it
applies the output, under the rule that only the inputs and lower claimants of the same hash give
way, and later still the inputs are deleted. A rebuild sees none of that history. It has the ULIDs
and, of each output, the highest of its inputs.

The two agree as long as each segment that comes to hold a block outranks, in a rebuild, everything
else on disk that claims it, and each output that fails to take a block is outranked by who keeps it
(`Compacting.Settles`). They part where a flush that an output had to yield to is itself compacted,
without that output: the new output holds the block live, but its horizon ends below the old one.

## Main results

* `Compacting.rebuild_agrees_iff`: every rebuild agrees with the live map, all along a run, exactly if
  every step of it settles.
-/

namespace Elide

open List LbaMapBuilder SegmentFile LbaMap

/-- A volume under flushes and compactions. -/
structure Compacting where
  live : LbaMap
  disk : List SegmentFile
  /-- Outputs planned and not applied. -/
  planned : List SegmentFile
  /-- The inputs of applied outputs. -/
  consumed : Finset Ulid
  /-- Every ULID minted. -/
  minted : Finset Ulid

namespace Compacting

/-- What happens to a volume while it is compacted. -/
inductive Action where
  | flush (ulid : Ulid) (entries : List SegmentEntry)
  /-- Plan an output from the live map of the moment. -/
  | plan (output : SegmentFile)
  | apply (output : SegmentFile)
  /-- Delete an input of an applied output. -/
  | delete (ulid : Ulid)

/-- A new volume. -/
def init : Compacting := ⟨.new, [], [], ∅, ∅⟩

/-- The admission of an output's claims into the live map. -/
def consuming (output : SegmentFile) : Admission := .consumingInputs output.inputs.toFinset

variable (s : Compacting)

/-- One action. -/
def step : Action → Compacting
  | .flush ulid entries =>
    let seg : SegmentFile := ⟨ulid, [], entries⟩
    { s with
      live := seg.register .unconditional s.live
      disk := s.disk ++ [seg]
      minted := insert ulid s.minted }
  | .plan output =>
    { s with planned := s.planned ++ [output], minted := insert output.ulid s.minted }
  | .apply output =>
    { s with
      live := output.register (consuming output) s.live
      disk := s.disk ++ [output]
      planned := s.planned.filter fun o => decide (o ≠ output)
      consumed := s.consumed ∪ output.inputs.toFinset }
  | .delete ulid =>
    if ulid ∈ s.consumed then { s with disk := s.disk.filter fun seg => decide (seg.ulid ≠ ulid) }
    else s

/-- The output claims a block exactly if one of the inputs holds it in the view, and for the same
content. -/
def Carries (live : LbaMap) (output : SegmentFile) : Prop :=
  ∀ x, ((output.claim x).map fun v => (v.1, v.2.1)) =
    (live.lookupWithClaimant x).bind fun v =>
      if v.2.2 ∈ output.inputs then some (v.1, v.2.1) else none

/-- Minted ULIDs are new, claims fit, and a plan carries what its inputs on disk hold. -/
def Legal : Action → Prop
  | .flush ulid entries => ulid ∉ s.minted ∧ ∀ e ∈ entries, LbaMap.EntryFits e
  | .plan output => output.ulid ∉ s.minted ∧ (∀ e ∈ output.entries, LbaMap.EntryFits e) ∧
      (∀ i ∈ output.inputs, ∃ seg ∈ s.disk, seg.ulid = i) ∧ Carries s.live output
  | .apply output => output ∈ s.planned
  | .delete _ => True

/-- The segments on disk that no applied output has consumed. -/
def kept : List SegmentFile :=
  s.disk.filter fun seg => decide (seg.ulid ∉ s.consumed)

/-- No input of an applied output is on disk any more. -/
def Settled : Prop := ∀ seg ∈ s.disk, seg.ulid ∉ s.consumed

/-- The segment holds block `x` in the live map. -/
def Holds (seg : SegmentFile) (x : ℕ) : Prop :=
  (seg.claim x).isSome = true ∧ s.live.lookupWithClaimant x = seg.claim x

instance (seg : SegmentFile) (x : ℕ) : Decidable (s.Holds seg x) :=
  inferInstanceAs (Decidable (_ ∧ _))

/-- A rebuild of what is kept, whole or in part, gives every block to the segment that holds it, if
that is in the part. -/
def Agrees : Prop :=
  ∀ x, ∀ w ∈ s.kept, s.Holds w x → ∀ part ⊆ s.kept, w ∈ part →
    (build part).lookupWithClaimant x = s.live.lookupWithClaimant x

/-- Who comes to hold a block outranks all others, and who keeps it against an output outranks the
output. -/
def Settles : Action → Prop
  | .flush ulid entries => ∀ x, ((⟨ulid, [], entries⟩ : SegmentFile).claim x).isSome = true →
      ∀ seg ∈ s.kept, (seg.claim x).isSome = true →
        (⟨ulid, [], entries⟩ : SegmentFile).Outranks seg x
  | .apply output => ∀ x, (output.claim x).isSome = true →
      ∀ seg ∈ s.kept, seg.ulid ∉ output.inputs → (seg.claim x).isSome = true →
        if ∀ v ∈ s.live.lookupWithClaimant x, output.Takes (consuming output) x v then
          output.Outranks seg x
        else s.Holds seg x → seg.Outranks output x
  | .plan _ => True
  | .delete _ => True

/-! ## What the steps keep -/

/-- Files with claims that fit, under names of their own. -/
structure Named (files : List SegmentFile) (minted : Finset Ulid) : Prop where
  fits : ∀ seg ∈ files, ∀ e ∈ seg.entries, LbaMap.EntryFits e
  distinct : ∀ a ∈ files, ∀ b ∈ files, a.ulid = b.ulid → a = b
  ulid : ∀ seg ∈ files, seg.ulid ∈ minted
  inputs : ∀ seg ∈ files, ∀ i ∈ seg.inputs, i ∈ minted

theorem Named.sub {files files' : List SegmentFile} {minted : Finset Ulid} (h : Named files minted)
    (hsub : files' ⊆ files) : Named files' minted :=
  ⟨fun t ht => h.fits t (hsub ht), fun a ha b hb => h.distinct a (hsub ha) b (hsub hb),
    fun t ht => h.ulid t (hsub ht), fun t ht => h.inputs t (hsub ht)⟩

theorem Named.add {files files' : List SegmentFile} {minted : Finset Ulid} (h : Named files minted)
    (seg : SegmentFile) (hfits : ∀ e ∈ seg.entries, LbaMap.EntryFits e) (hfresh : seg.ulid ∉ minted)
    (hinputs : ∀ i ∈ seg.inputs, i ∈ minted) (hmem : ∀ t ∈ files', t ∈ files ∨ t = seg) :
    Named files' (insert seg.ulid minted) := by
  have hnew : ∀ t ∈ files, t.ulid ≠ seg.ulid := fun t ht heq => hfresh (heq ▸ h.ulid t ht)
  refine ⟨fun t ht => ?_, fun a ha b hb heq => ?_, fun t ht => ?_, fun t ht i hi => ?_⟩
  · rcases hmem t ht with ht | rfl
    · exact h.fits t ht
    · exact hfits
  · rcases hmem a ha with ha | rfl <;> rcases hmem b hb with hb | rfl
    · exact h.distinct a ha b hb heq
    · exact absurd heq (hnew a ha)
    · exact absurd heq.symm (hnew b hb)
    · rfl
  · rcases hmem t ht with ht | rfl
    · exact Finset.mem_insert_of_mem (h.ulid t ht)
    · exact Finset.mem_insert_self _ _
  · rcases hmem t ht with ht | rfl
    · exact Finset.mem_insert_of_mem (h.inputs t ht i hi)
    · exact Finset.mem_insert_of_mem (hinputs i hi)

/-- The invariant of a run. -/
structure Ok (s : Compacting) : Prop where
  inv : s.live.Inv
  named : Named (s.disk ++ s.planned) s.minted
  consumed : s.consumed ⊆ s.minted
  /-- What is planned is not on disk, and nobody's input. -/
  planned : ∀ o ∈ s.planned, o ∉ s.disk ∧ o.ulid ∉ s.consumed ∧ ∀ o' ∈ s.planned, o.ulid ∉ o'.inputs
  /-- Every live claim is that of a kept segment. -/
  held : ∀ x v, s.live.lookupWithClaimant x = some v → ∃ w ∈ s.kept, w.claim x = some v
  /-- A block that was claimed stays claimed. -/
  claimed : ∀ seg ∈ s.disk, ∀ x, (seg.claim x).isSome = true →
    (s.live.lookupWithClaimant x).isSome = true
  /-- What the inputs of a plan still hold is in the plan. -/
  carries : ∀ o ∈ s.planned, ∀ x v, s.live.lookupWithClaimant x = some v → v.2.2 ∈ o.inputs →
    (o.claim x).isSome = true

variable {s : Compacting}

theorem mem_kept {seg : SegmentFile} : seg ∈ s.kept ↔ seg ∈ s.disk ∧ seg.ulid ∉ s.consumed := by
  rw [kept, mem_filter, decide_eq_true_eq]

theorem ok_init : init.Ok where
  inv := inv_new
  named := ⟨by simp [init], by simp [init], by simp [init], by simp [init]⟩
  consumed := by simp [init]
  planned := by simp [init]
  held := by
    intro x v hv
    exact absurd hv (by simp [init, ← value_tiles, tiles_new])
  claimed := by simp [init]
  carries := by simp [init]

variable {entries : List SegmentEntry}

/-- A flush claims its blocks, whoever holds them. -/
theorem Ok.lookup_flush (h : s.Ok) (ulid : Ulid) (hfits : ∀ e ∈ entries, LbaMap.EntryFits e) :
    (s.step (.flush ulid entries)).live.Inv ∧
      ∀ x, (s.step (.flush ulid entries)).live.lookupWithClaimant x =
        ((⟨ulid, [], entries⟩ : SegmentFile).claim x).or (s.live.lookupWithClaimant x) :=
  h.inv.lookup_register_unconditional ⟨ulid, [], entries⟩ hfits

variable {output : SegmentFile}

theorem Ok.lookup_apply (h : s.Ok) (hout : output ∈ s.planned) : (s.step (.apply output)).live.Inv ∧
      ∀ x, (s.step (.apply output)).live.lookupWithClaimant x = if (output.claim x).isSome ∧
            ∀ v ∈ s.live.lookupWithClaimant x, output.Takes (consuming output) x v then
          output.claim x
        else s.live.lookupWithClaimant x :=
  h.inv.lookup_register output (h.named.fits output (mem_append_right _ hout)) (consuming output)

/-- What an input holds gives way to the output that carries it. -/
theorem takes_of_mem_inputs {x : ℕ} {v : Hash × ℕ × Ulid} (hx : (output.claim x).isSome = true)
    (hv : v.2.2 ∈ output.inputs) : output.Takes (consuming output) x v := by
  obtain ⟨e, he, hc⟩ := isSome_claim_iff.mp hx
  refine ⟨e, he, hc, ?_⟩
  simp [consuming, Admission.admits, Blocking.blocks, hv]

theorem Ok.mem_kept_flush (h : s.Ok) {ulid : Ulid} (hfresh : ulid ∉ s.minted)
    (entries : List SegmentEntry) (t : SegmentFile) :
    t ∈ (s.step (.flush ulid entries)).kept ↔ t ∈ s.kept ∨ t = ⟨ulid, [], entries⟩ := by
  rw [mem_kept, mem_kept]
  simp only [step, mem_append, mem_singleton]
  constructor
  · rintro ⟨hdisk | rfl, hcons⟩
    · exact .inl ⟨hdisk, hcons⟩
    · exact .inr rfl
  · rintro (⟨hdisk, hcons⟩ | rfl)
    · exact ⟨.inl hdisk, hcons⟩
    · exact ⟨.inr rfl, fun hcons => hfresh (h.consumed hcons)⟩

theorem Ok.flush (h : s.Ok) {ulid : Ulid} (hlegal : s.Legal (.flush ulid entries)) :
    (s.step (.flush ulid entries)).Ok := by
  obtain ⟨hfresh, hfits⟩ := hlegal
  obtain ⟨hinv, hlook⟩ := h.lookup_flush ulid hfits
  have hnew : ∀ o ∈ s.planned, o.ulid ≠ ulid := fun o ho heq =>
    hfresh (heq ▸ h.named.ulid o (mem_append_right _ ho))
  -- a live claim is the flush's own or was there before
  have hlive : ∀ x v, (s.step (.flush ulid entries)).live.lookupWithClaimant x = some v →
      (⟨ulid, [], entries⟩ : SegmentFile).claim x = some v ∨ s.live.lookupWithClaimant x = some v := by
    intro x v hv
    rw [hlook, Option.or_eq_some_iff] at hv
    exact hv.imp id And.right
  refine ⟨hinv, ?_, h.consumed.trans (Finset.subset_insert _ _), fun o ho => ?_, fun x v hv => ?_,
    fun seg hseg x hx => ?_, fun o ho x v hv hin => ?_⟩
  · refine h.named.add ⟨ulid, [], entries⟩ hfits hfresh (by simp) fun t ht => ?_
    simp only [step, mem_append, mem_singleton] at ht ⊢
    tauto
  · obtain ⟨hdisk, hcons, hinputs⟩ := h.planned o ho
    refine ⟨fun hin => ?_, hcons, hinputs⟩
    rcases mem_append.mp hin with hin | hin
    · exact hdisk hin
    · exact hnew o ho (by rw [mem_singleton.mp hin])
  · rcases hlive x v hv with hv | hv
    · exact ⟨_, (h.mem_kept_flush hfresh entries _).mpr (.inr rfl), hv⟩
    · obtain ⟨w, hw, hclaim⟩ := h.held x v hv
      exact ⟨w, (h.mem_kept_flush hfresh entries w).mpr (.inl hw), hclaim⟩
  · rw [hlook, Option.isSome_or, Bool.or_eq_true]
    rcases mem_append.mp hseg with hseg | hseg
    · exact .inr (h.claimed seg hseg x hx)
    · exact .inl (mem_singleton.mp hseg ▸ hx)
  · rcases hlive x v hv with hv | hv
    · rw [ulid_of_claim hv] at hin
      exact absurd (h.named.inputs o (mem_append_right _ ho) _ hin) hfresh
    · exact h.carries o ho x v hv hin

theorem Ok.plan (h : s.Ok) (hlegal : s.Legal (.plan output)) : (s.step (.plan output)).Ok := by
  obtain ⟨hfresh, hfits, hinputs, hcarries⟩ := hlegal
  have hminted : ∀ i ∈ output.inputs, i ∈ s.minted := by
    intro i hi
    obtain ⟨seg, hseg, rfl⟩ := hinputs i hi
    exact h.named.ulid seg (mem_append_left _ hseg)
  refine ⟨h.inv, ?_, h.consumed.trans (Finset.subset_insert _ _), fun o ho => ?_, h.held, h.claimed,
    fun o ho x v hv hin => ?_⟩
  · refine h.named.add output hfits hfresh hminted fun t ht => ?_
    simp only [step, mem_append, mem_singleton] at ht ⊢
    tauto
  · rcases mem_append.mp ho with ho | ho
    · obtain ⟨hdisk, hcons, hin⟩ := h.planned o ho
      refine ⟨hdisk, hcons, fun o' ho' => ?_⟩
      rcases mem_append.mp ho' with ho' | ho'
      · exact hin o' ho'
      · -- an input of the new plan is on disk
        rw [mem_singleton.mp ho']
        intro hi
        obtain ⟨seg, hseg, heq⟩ := hinputs _ hi
        refine hdisk (h.named.distinct seg (mem_append_left _ hseg) o
          (mem_append_right _ ho) heq ▸ hseg)
    · rw [mem_singleton.mp ho]
      refine ⟨fun hin => hfresh (h.named.ulid output (mem_append_left _ hin)),
        fun hcons => hfresh (h.consumed hcons), fun o' ho' hin => hfresh ?_⟩
      rcases mem_append.mp ho' with ho' | ho'
      · exact h.named.inputs o' (mem_append_right _ ho') _ hin
      · exact hminted _ (mem_singleton.mp ho' ▸ hin)
  · rcases mem_append.mp ho with ho | ho
    · exact h.carries o ho x v hv hin
    · rw [mem_singleton.mp ho] at hin ⊢
      have hview := hcarries x
      rw [show s.live.lookupWithClaimant x = some v from hv, Option.bind_some, if_pos hin] at hview
      obtain ⟨v', hv', -⟩ := Option.map_eq_some_iff.mp hview
      rw [hv']
      rfl

theorem mem_kept_apply (hout : output.ulid ∉ s.consumed) (hself : output.ulid ∉ output.inputs)
    (seg : SegmentFile) :
    seg ∈ (s.step (.apply output)).kept ↔
      (seg ∈ s.kept ∧ seg.ulid ∉ output.inputs) ∨ seg = output := by
  rw [mem_kept, mem_kept]
  simp only [step, mem_append, mem_singleton, Finset.mem_union, mem_toFinset, not_or]
  constructor
  · rintro ⟨hdisk | rfl, hcons, hin⟩
    · exact .inl ⟨⟨hdisk, hcons⟩, hin⟩
    · exact .inr rfl
  · rintro (⟨⟨hdisk, hcons⟩, hin⟩ | rfl)
    · exact ⟨.inl hdisk, hcons, hin⟩
    · exact ⟨.inr rfl, hout, hself⟩

theorem files_apply (hout : output ∈ s.planned) :
    (s.step (.apply output)).disk ++ (s.step (.apply output)).planned ⊆ s.disk ++ s.planned := by
  intro t ht
  simp only [step, mem_append, mem_singleton, mem_filter] at ht ⊢
  rcases ht with (ht | rfl) | ⟨ht, -⟩
  · exact .inl ht
  · exact .inr hout
  · exact .inr ht

theorem Ok.apply (h : s.Ok) (hout : output ∈ s.planned) : (s.step (.apply output)).Ok := by
  obtain ⟨hinv, hlook⟩ := h.lookup_apply hout
  obtain ⟨hdisk, hcons, hinputs⟩ := h.planned output hout
  -- a live claim is the output's own or was there before and is no input's
  have hlive : ∀ x v, (s.step (.apply output)).live.lookupWithClaimant x = some v →
      output.claim x = some v ∨ s.live.lookupWithClaimant x = some v ∧ v.2.2 ∉ output.inputs := by
    intro x v hv
    rw [hlook] at hv
    split_ifs at hv with htakes
    · exact .inl hv
    · refine .inr ⟨hv, fun hin => ?_⟩
      have hclaim := h.carries output hout x v hv hin
      refine htakes ⟨hclaim, fun v' hv' => ?_⟩
      rw [Option.mem_unique hv' hv]
      exact takes_of_mem_inputs hclaim hin
  refine ⟨hinv, ?_, ?_, fun o ho => ?_, fun x v hv => ?_, fun seg hseg x hx => ?_,
    fun o ho x v hv hin => ?_⟩
  · exact h.named.sub (files_apply hout)
  · exact Finset.union_subset h.consumed fun i hi =>
      h.named.inputs output (mem_append_right _ hout) i (mem_toFinset.mp hi)
  · obtain ⟨ho, hne⟩ := mem_filter.mp ho
    obtain ⟨hd, hc, hi⟩ := h.planned o ho
    refine ⟨fun hin => ?_, fun hin => ?_, fun o' ho' => hi o' (mem_filter.mp ho').1⟩
    · rcases mem_append.mp hin with hin | hin
      · exact hd hin
      · exact of_decide_eq_true hne (mem_singleton.mp hin)
    · rcases Finset.mem_union.mp hin with hin | hin
      · exact hc hin
      · exact hi output hout (mem_toFinset.mp hin)
  · rcases hlive x v hv with hv | ⟨hv, hin⟩
    · exact ⟨output, (mem_kept_apply hcons (hinputs output hout) _).mpr (.inr rfl), hv⟩
    · obtain ⟨w, hw, hclaim⟩ := h.held x v hv
      rw [ulid_of_claim hclaim] at hin
      exact ⟨w, (mem_kept_apply hcons (hinputs output hout) _).mpr (.inl ⟨hw, hin⟩), hclaim⟩
  · rw [hlook]
    split_ifs with htakes
    · exact htakes.1
    · rcases mem_append.mp hseg with hseg | hseg
      · exact h.claimed seg hseg x hx
      · -- the output is not admitted, so somebody holds the block
        rw [mem_singleton.mp hseg] at hx
        by_contra hbare
        rw [Option.not_isSome_iff_eq_none] at hbare
        exact htakes ⟨hx, by simp [hbare]⟩
  · obtain ⟨ho, -⟩ := mem_filter.mp ho
    rcases hlive x v hv with hv | ⟨hv, -⟩
    · rw [ulid_of_claim hv] at hin
      exact absurd hin (hinputs o ho)
    · exact h.carries o ho x v hv hin

theorem kept_delete (ulid : Ulid) : (s.step (.delete ulid)).kept = s.kept := by
  rw [step]
  split_ifs with hin
  · rw [kept, filter_filter]
    refine filter_congr fun seg _ => ?_
    by_cases heq : seg.ulid = ulid
    · simp [heq, hin]
    · simp [heq]
  · rfl

/-- A delete changes the disk only. -/
theorem step_delete (s : Compacting) (ulid : Ulid) :
    ∃ disk, disk.Sublist s.disk ∧ s.step (.delete ulid) = { s with disk := disk } := by
  rw [step]
  split_ifs
  · exact ⟨_, filter_sublist, rfl⟩
  · exact ⟨s.disk, .refl _, rfl⟩

theorem live_delete (ulid : Ulid) : (s.step (.delete ulid)).live = s.live := by
  obtain ⟨disk, -, heq⟩ := s.step_delete ulid
  rw [heq]

section

variable (h : s.Ok)
include h

theorem Ok.delete (ulid : Ulid) : (s.step (.delete ulid)).Ok := by
  have hkept := kept_delete (s := s) ulid
  obtain ⟨disk, hdisk, heq⟩ := s.step_delete ulid
  rw [heq] at hkept ⊢
  refine ⟨h.inv, h.named.sub (hdisk.append_right _).subset, h.consumed, fun o ho => ?_,
    hkept ▸ h.held, fun seg hseg => h.claimed seg (hdisk.subset hseg), h.carries⟩
  obtain ⟨hnot, hrest⟩ := h.planned o ho
  exact ⟨fun hin => hnot (hdisk.subset hin), hrest⟩

theorem Ok.step (a : Action) (hlegal : s.Legal a) : (s.step a).Ok := by
  cases a with
  | flush ulid entries => exact h.flush hlegal
  | plan output => exact h.plan hlegal
  | apply output => exact h.apply hlegal
  | delete ulid => exact h.delete ulid

/-! ## Ranks -/

/-- Who holds a block outranks every other kept segment that claims it. -/
def Ranked (s : Compacting) : Prop :=
  ∀ x, ∀ w ∈ s.kept, s.Holds w x → ∀ seg ∈ s.kept, seg ≠ w → (seg.claim x).isSome = true →
    w.Outranks seg x

theorem Ok.kept_named : Named s.kept s.minted :=
  h.named.sub fun _ ht => mem_append_left _ (mem_kept.mp ht).1

theorem Ok.agrees_iff : s.Agrees ↔ s.Ranked := by
  refine forall₃_congr fun x w hw => forall_congr' fun hholds => ?_
  rw [hholds.2]
  exact build_eq_iff_outranks h.kept_named.fits h.kept_named.distinct hw hholds.1

/-- A block has one holder. -/
theorem Ok.holder_unique {w w' : SegmentFile} (hw : w ∈ s.kept) (hw' : w' ∈ s.kept) {x : ℕ}
    (hx : (w.claim x).isSome = true) (heq : w.claim x = w'.claim x) : w = w' := by
  obtain ⟨v, hv⟩ := Option.isSome_iff_exists.mp hx
  exact h.kept_named.distinct w hw w' hw' ((ulid_of_claim hv).symm.trans (ulid_of_claim (heq ▸ hv)))

theorem Ok.ranked_flush_iff {ulid : Ulid} (hlegal : s.Legal (.flush ulid entries))
    (hranked : s.Ranked) :
    (s.step (.flush ulid entries)).Ranked ↔ s.Settles (.flush ulid entries) := by
  have hok := h.flush hlegal
  obtain ⟨hfresh, hfits⟩ := hlegal
  obtain ⟨-, hlook⟩ := h.lookup_flush ulid hfits
  have hmem := h.mem_kept_flush hfresh entries
  have hnew : ∀ t ∈ s.kept, t ≠ ⟨ulid, [], entries⟩ := by
    rintro t ht rfl
    exact hfresh (h.kept_named.ulid _ ht)
  constructor
  · intro hr x hx seg hseg hsx
    refine hr x _ ((hmem _).mpr (.inr rfl)) ⟨hx, ?_⟩ seg ((hmem seg).mpr (.inl hseg))
      (hnew seg hseg) hsx
    rw [hlook, Option.or_of_isSome hx]
  · intro hs x w hw hholds seg hseg hne hsx
    obtain ⟨hwx, hlive⟩ := hholds
    by_cases hx : ((⟨ulid, [], entries⟩ : SegmentFile).claim x).isSome = true
    · -- the flush holds the block
      rw [hlook, Option.or_of_isSome hx] at hlive
      obtain rfl := hok.holder_unique hw ((hmem _).mpr (.inr rfl)) hwx hlive.symm
      exact hs x hx seg (((hmem seg).mp hseg).resolve_right hne) hsx
    · have hother : ∀ t ∈ (s.step (.flush ulid entries)).kept, (t.claim x).isSome = true →
          t ∈ s.kept := by
        intro t ht htx
        refine ((hmem t).mp ht).resolve_right ?_
        rintro rfl
        exact hx htx
      rw [hlook, Option.not_isSome_iff_eq_none.mp hx] at hlive
      exact hranked x w (hother w hw hwx) ⟨hwx, hlive⟩ seg (hother seg hseg hsx) hne hsx

theorem Ok.ranked_apply_iff (hout : output ∈ s.planned) (hranked : s.Ranked) :
    (s.step (.apply output)).Ranked ↔ s.Settles (.apply output) := by
  have hok := h.apply hout
  obtain ⟨-, hlook⟩ := h.lookup_apply hout
  obtain ⟨hdisk, hcons, hinputs⟩ := h.planned output hout
  have hmem := mem_kept_apply hcons (hinputs output hout)
  have hnew : ∀ t ∈ s.kept, t ≠ output := by
    rintro t ht rfl
    exact hdisk (mem_kept.mp ht).1
  have hself : output ∈ (s.step (.apply output)).kept := (hmem output).mpr (.inr rfl)
  constructor
  · intro hr x hx seg hseg hin hsx
    have hseg' := (hmem seg).mpr (.inl ⟨hseg, hin⟩)
    split_ifs with htakes
    · refine hr x output hself ⟨hx, ?_⟩ seg hseg' (hnew seg hseg) hsx
      rw [hlook, if_pos ⟨hx, htakes⟩]
    · intro hholds
      refine hr x seg hseg' ⟨hsx, ?_⟩ output hself (hnew seg hseg).symm hx
      rw [hlook, if_neg fun h => htakes h.2]
      exact hholds.2
  · intro hs x w hw hholds seg hseg hne hsx
    obtain ⟨hwx, hlive⟩ := hholds
    rw [hlook] at hlive
    by_cases htakes : (output.claim x).isSome = true ∧
        ∀ v ∈ s.live.lookupWithClaimant x, output.Takes (consuming output) x v
    · -- the output holds the block
      rw [if_pos htakes] at hlive
      obtain rfl := hok.holder_unique hw hself hwx hlive.symm
      obtain ⟨hkept, hin⟩ := ((hmem seg).mp hseg).resolve_right hne
      have houtranks := hs x htakes.1 seg hkept hin hsx
      rwa [if_pos htakes.2] at houtranks
    · rw [if_neg htakes] at hlive
      -- who held the block before is a kept segment, so it is not the output
      have hwkept : w ∈ s.kept ∧ w.ulid ∉ output.inputs := by
        refine ((hmem w).mp hw).resolve_right ?_
        rintro rfl
        obtain ⟨v, hv⟩ := Option.isSome_iff_exists.mp hwx
        obtain ⟨t, ht, hclaim⟩ := h.held x v (hlive.trans hv)
        refine hnew t ht (h.named.distinct t (mem_append_left _ (mem_kept.mp ht).1) _
          (mem_append_right _ hout) ?_)
        rw [← ulid_of_claim hclaim, ← ulid_of_claim hv]
      rcases (hmem seg).mp hseg with ⟨hkept, -⟩ | rfl
      · exact hranked x w hwkept.1 ⟨hwx, hlive⟩ seg hkept hne hsx
      · have houtranks := hs x hsx w hwkept.1 hwkept.2 hwx
        rw [if_neg fun h => htakes ⟨hsx, h⟩] at houtranks
        exact houtranks ⟨hwx, hlive⟩

/-- **One step keeps the ranks exactly if it settles.** -/
theorem Ok.agrees_step_iff (a : Action) (hlegal : s.Legal a) (hagrees : s.Agrees) :
    (s.step a).Agrees ↔ s.Settles a := by
  have hranked := h.agrees_iff.mp hagrees
  rw [(h.step a hlegal).agrees_iff]
  cases a with
  | flush ulid entries => exact h.ranked_flush_iff hlegal hranked
  | plan output => exact iff_of_true hranked trivial
  | apply output => exact h.ranked_apply_iff hlegal hranked
  | delete ulid =>
    refine iff_of_true ?_ trivial
    intro x w hw hholds
    rw [kept_delete] at hw ⊢
    exact hranked x w hw (by rwa [Holds, live_delete] at hholds)

/-- Once the inputs are gone, what is kept is the disk. -/
theorem Ok.rebuild_eq (hagrees : s.Agrees) (hsettled : s.Settled) (x : ℕ) :
    (build s.disk).lookup x = s.live.lookup x := by
  have hdisk : s.disk ⊆ s.kept := fun t ht => mem_kept.mpr ⟨ht, hsettled t ht⟩
  rw [lookup_eq_map, lookup_eq_map]
  refine congrArg _ ?_
  cases hx : s.live.lookupWithClaimant x with
  | none =>
    refine lookup_build_eq_none (fun t ht => h.kept_named.fits t (hdisk ht)) fun t ht => ?_
    rw [← Option.not_isSome_iff_eq_none]
    intro htx
    have hsome := h.claimed t ht x htx
    rw [hx] at hsome
    cases hsome
  | some v =>
    obtain ⟨w, hw, hclaim⟩ := h.held x v hx
    rw [← hx]
    exact hagrees x w hw ⟨by rw [hclaim]; rfl, hx.trans hclaim.symm⟩ s.disk hdisk (mem_kept.mp hw).1

end

/-- **Live apply against rebuild.** A run keeps every rebuild of kept segments in agreement with the
live map exactly if every step settles; and then a rebuild of the disk reads as the live map
wherever the inputs of the applied outputs are gone. -/
theorem rebuild_agrees_iff {as : List Action} (hlegal : Run.Each step Legal init as) :
    (Run.Always step Agrees init as ↔ Run.Each step Settles init as) ∧
      (Run.Each step Settles init as → Run.Always step (fun s => s.Settled → ∀ lba,
          (build s.disk).lookup lba = s.live.lookup lba) init as) := by
  have hinit : init.Agrees := fun x w hw => absurd hw (by simp [kept, init])
  have hiff := Run.always_iff_each (fun s a (hs : s.Ok) ha => hs.step a ha)
    (fun s a hs ha hP => hs.agrees_step_iff a ha hP) ok_init hinit hlegal
  refine ⟨hiff, fun heach => ?_⟩
  have hok := Run.always_of_each (fun s a (hs : s.Ok) ha => hs.step a ha) ok_init hlegal
  exact (hok.and (hiff.mpr heach)).mono fun s hs => hs.1.rebuild_eq hs.2

/-! ## Two runs on one block -/

/-- A segment that claims block 0. -/
def atZero (ulid : Ulid) (inputs : List Ulid) (hash : Hash) : SegmentFile :=
  ⟨ulid, inputs, [.newDataNoBody hash 0 1 .none 4096]⟩

theorem claim_eq_none_of_le {seg : SegmentFile} {n x : ℕ}
    (h : ∀ e ∈ seg.entries, e.startLba + e.lbaLength ≤ n) (hx : n ≤ x) : seg.claim x = none := by
  rw [← Option.not_isSome_iff_eq_none, isSome_claim_iff]
  rintro ⟨e, he, -, hcov⟩
  exact absurd hcov.2 (not_lt.mpr ((h e he).trans hx))

/-- Where only the first `n` blocks are claimed, a plan is checked there. -/
theorem Ok.carries_of_le (h : s.Ok) (n : ℕ)
    (hout : ∀ e ∈ output.entries, e.startLba + e.lbaLength ≤ n)
    (hdisk : ∀ seg ∈ s.disk, ∀ e ∈ seg.entries, e.startLba + e.lbaLength ≤ n)
    (hlt : ∀ x < n, ((output.claim x).map fun v => (v.1, v.2.1)) =
      (s.live.lookupWithClaimant x).bind fun v =>
        if v.2.2 ∈ output.inputs then some (v.1, v.2.1) else none) : Carries s.live output := by
  intro x
  rcases lt_or_ge x n with hx | hx
  · exact hlt x hx
  · have hbare : s.live.lookupWithClaimant x = none := by
      by_contra hsome
      obtain ⟨v, hv⟩ := Option.ne_none_iff_exists'.mp hsome
      obtain ⟨w, hw, hclaim⟩ := h.held x v hv
      rw [claim_eq_none_of_le (hdisk w (mem_kept.mp hw).1) hx] at hclaim
      cases hclaim
    rw [claim_eq_none_of_le hout hx, hbare]
    rfl

/-- Two writes of a block, the second one compacted. -/
def compactedInOrder : List Action :=
  [.flush 1 (atZero 1 [] 7).entries, .flush 2 (atZero 2 [] 8).entries, .plan (atZero 5 [2] 8),
    .apply (atZero 5 [2] 8), .delete 2]

theorem rebuild_agrees_in_order :
    Run.Each step Legal init compactedInOrder ∧ Run.Each step Settles init compactedInOrder ∧
      Run.Always step (fun s => s.Settled → ∀ lba,
        (build s.disk).lookup lba = s.live.lookup lba) init compactedInOrder := by
  have h₁ : init.Legal (.flush 1 (atZero 1 [] 7).entries) := ⟨by decide, by decide⟩
  have h₂ : (init.step (.flush 1 (atZero 1 [] 7).entries)).Legal
      (.flush 2 (atZero 2 [] 8).entries) := ⟨by decide, by decide⟩
  have h₃ : ((init.step (.flush 1 (atZero 1 [] 7).entries)).step
      (.flush 2 (atZero 2 [] 8).entries)).Legal (.plan (atZero 5 [2] 8)) := by
    have hok := (ok_init.step _ h₁).step _ h₂
    exact ⟨by decide, by decide, by decide,
      hok.carries_of_le 1 (by decide) (by decide) (by decide)⟩
  have hlegal : Run.Each step Legal init compactedInOrder :=
    ⟨h₁, h₂, h₃, mem_singleton_self _, trivial, trivial⟩
  have hzero : ∀ (u : Ulid) (i : List Ulid) (hash : Hash) {P : ℕ → Prop}, P 0 → ∀ x,
      ((atZero u i hash).claim x).isSome = true → P x := by
    intro u i hash P h0 x hx
    by_cases h : x = 0
    · exact h ▸ h0
    · rw [claim_eq_none_of_le (n := 1) (by simp [atZero, SegmentEntry.newDataNoBody])
        (Nat.one_le_iff_ne_zero.mpr h)] at hx
      cases hx
  have hsettles : Run.Each step Settles init compactedInOrder :=
    ⟨hzero 1 [] 7 (by decide), hzero 2 [] 8 (by decide), trivial, hzero 5 [2] 8 (by decide), trivial,
      trivial⟩
  exact ⟨hlegal, hsettles, (rebuild_agrees_iff hlegal).2 hsettles⟩

/-- A block is written; an output is planned from it; the block is written again before the output
is applied. -/
def straddled : List Action :=
  [.flush 1 (atZero 1 [] 7).entries, .plan (atZero 5 [1] 7), .flush 3 (atZero 3 [] 8).entries,
    .apply (atZero 5 [1] 7)]

theorem ok_straddled : (straddled.foldl step init).Ok ∧ ∀ as : List Action,
    Run.Each step Legal (straddled.foldl step init) as →
      Run.Each step Legal init (straddled ++ as) := by
  have h₁ : init.Legal (.flush 1 (atZero 1 [] 7).entries) := ⟨by decide, by decide⟩
  have h₂ : (init.step (.flush 1 (atZero 1 [] 7).entries)).Legal (.plan (atZero 5 [1] 7)) := by
    exact ⟨by decide, by decide, by decide,
      (ok_init.step _ h₁).carries_of_le 1 (by decide) (by decide) (by decide)⟩
  have h₃ : ((init.step (.flush 1 (atZero 1 [] 7).entries)).step (.plan (atZero 5 [1] 7))).Legal
      (.flush 3 (atZero 3 [] 8).entries) := ⟨by decide, by decide⟩
  have hok := ((ok_init.step _ h₁).step _ h₂).step _ h₃
  exact ⟨hok.step (.apply (atZero 5 [1] 7)) (mem_singleton_self _),
    fun _ h => ⟨h₁, h₂, h₃, mem_singleton_self _, h⟩⟩

/-- The second write is compacted alone. -/
def compactedStraddler : List Action :=
  [.flush 1 (atZero 1 [] 7).entries, .plan (atZero 5 [1] 7), .flush 3 (atZero 3 [] 8).entries,
    .apply (atZero 5 [1] 7), .plan (atZero 7 [3] 8), .apply (atZero 7 [3] 8), .delete 1, .delete 3]

/-- The live map reads the second write, a rebuild the first. -/
theorem compacted_straddler_resurrects : Run.Each step Legal init compactedStraddler ∧
      (compactedStraddler.foldl step init).Settled ∧
      (compactedStraddler.foldl step init).live.lookup 0 = some (8, 0) ∧
      (build (compactedStraddler.foldl step init).disk).lookup 0 = some (7, 0) := by
  have h₅ : Carries (straddled.foldl step init).live (atZero 7 [3] 8) :=
    ok_straddled.1.carries_of_le 1 (by decide) (by decide) (by decide)
  refine ⟨ok_straddled.2 _ ⟨⟨by decide, by decide, by decide, h₅⟩,
    mem_append_right _ (mem_singleton_self _), trivial, trivial, trivial⟩, ?_, by decide, ?_⟩
  · show ∀ seg ∈ _, _
    decide
  · have hdisk : (compactedStraddler.foldl step init).disk = [atZero 5 [1] 7, atZero 7 [3] 8] := by
      decide
    have hclaim : (build [atZero 5 [1] 7, atZero 7 [3] 8]).lookupWithClaimant 0 =
        (atZero 5 [1] 7).claim 0 :=
      build_eq_of_outranks (by decide) (by decide) (by decide) (by decide) (by decide)
    rw [hdisk, lookup_eq_map, hclaim]
    decide

end Compacting

end Elide
