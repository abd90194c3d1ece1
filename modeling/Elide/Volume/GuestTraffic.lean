import Elide.MapLayers.Structural
import Elide.Volume.Epoch

/-!
# Guest writes between the holds of an apply

An apply takes the volume mutex twice, and the guest goes on writing in between. All it changes is
the open epoch: `delta` covers more blocks, under claims of the open WAL, and holds more bodies.
`MapLayers.Later` collects what that gives an apply, and `Volume.Epoch.claimsResolve_commits` says
that the write path itself strands no claim.
-/

namespace Elide

open ExtentIndex List

namespace MapLayers

/-- What guest writes turn the layers `l` into. -/
structure Later (l l' : MapLayers) : Prop where
  base : l'.base = l.base
  frozen : l'.frozen = l.frozen
  covers : ∀ x, (l.delta.lbamap.lookupWithClaimant x).isSome = true →
    (l'.delta.lbamap.lookupWithClaimant x).isSome = true
  bodies : ∀ h, (l.delta.extentIndex.lookup h).isSome = true →
    (l'.delta.extentIndex.lookup h).isSome = true
  journal : ∀ s h, (l.delta.extentIndex.lookupJournal s h).isSome = true →
    (l'.delta.extentIndex.lookupJournal s h).isSome = true
  deltas : l'.delta.extentIndex.deltas = l.delta.extentIndex.deltas

variable {l l' l'' : MapLayers}

theorem Later.refl (l : MapLayers) : l.Later l :=
  ⟨rfl, rfl, fun _ h => h, fun _ h => h, fun _ _ h => h, rfl⟩

theorem Later.trans (h : l.Later l') (h' : l'.Later l'') : l.Later l'' where
  base := h'.base.trans h.base
  frozen := h'.frozen.trans h.frozen
  covers := fun x hx => h'.covers x (h.covers x hx)
  bodies := fun k hk => h'.bodies k (h.bodies k hk)
  journal := fun s k hk => h'.journal s k (h.journal s k hk)
  deltas := h'.deltas.trans h.deltas

theorem Later.claimBelow (h : l.Later l') (x : ℕ) : l'.claimBelow x = l.claimBelow x := by
  rw [MapLayers.claimBelow, MapLayers.claimBelow, h.base, h.frozen]

theorem Later.bare (h : l.Later l') {x : ℕ} (hx : l'.delta.lbamap.lookupWithClaimant x = none) :
    l.delta.lbamap.lookupWithClaimant x = none := by
  cases hl : l.delta.lbamap.lookupWithClaimant x with
  | none => rfl
  | some v =>
    have hcov := h.covers x (by rw [hl]; rfl)
    rw [hx] at hcov
    cases hcov

/-- A block the open epoch does not cover now reads as it did before. -/
theorem Later.claimAt_of_bare (h : l.Later l') {x : ℕ}
    (hx : l'.delta.lbamap.lookupWithClaimant x = none) : l'.claimAt x = l.claimAt x := by
  rw [claimAt_eq, claimAt_eq, hx, h.bare hx, h.claimBelow]

theorem Later.locates (h : l.Later l') {k : Hash} (hk : l.locates k = true) :
    l'.locates k = true := by
  rw [locates_iff] at hk ⊢
  rw [h.base, h.frozen]
  exact hk.imp_left (h.bodies k)

theorem isSome_lookupJournal_iff {s : Ulid} {h : Hash} : (l.lookupJournal s h).isSome = true ↔
    (l.delta.extentIndex.lookupJournal s h).isSome = true ∨
      (∃ layer ∈ l.frozen, (layer.maps.extentIndex.lookupJournal s h).isSome = true) ∨
      (l.base.extentIndex.lookupJournal s h).isSome = true := by
  rw [lookupJournal]
  simp [all]

theorem Later.lookupDelta (h : l.Later l') (k : Hash) : l'.lookupDelta k = l.lookupDelta k := by
  have hdelta : l'.delta.extentIndex.lookupDelta k = l.delta.extentIndex.lookupDelta k :=
    congrArg (AList.lookup k) h.deltas
  rw [MapLayers.lookupDelta, MapLayers.lookupDelta, findSome?_all, findSome?_all, h.base, h.frozen,
    hdelta]

/-- What a read finds it goes on finding. -/
theorem Later.findsBody (h : l.Later l') {c : Ulid} {k : Hash} (hk : l.findsBody c k = true) :
    l'.findsBody c k = true := by
  simp only [MapLayers.findsBody, Bool.or_eq_true, h.lookupDelta k] at hk ⊢
  rcases hk with (hj | hb) | hd
  · left; left
    rw [isSome_lookupJournal_iff] at hj ⊢
    rw [h.base, h.frozen]
    exact hj.imp_left (h.journal c k)
  · exact .inl (.inr (h.locates hb))
  · right
    obtain ⟨d, hd, hopt⟩ := Option.any_eq_true _ _ |>.mp hd
    obtain ⟨o, ho, hsrc⟩ := any_eq_true.mp hopt
    rw [hd]
    exact any_eq_true.mpr ⟨o, ho, h.locates hsrc⟩

/-- What an apply removes and the swap finds unclaimed is claimed nowhere: a claim of the open epoch
is looked at by the swap, and any other one was there at the fold. -/
theorem Later.not_mem_removed (hlater : l.Later l') (hl : l.Inv) (hl' : l'.Inv)
    {removed : Finset Hash}
    (hview : ∀ h ∈ removed, l.materialised.lbamap.isReferenced h = false)
    (hfree : l'.deltaClaimsAny removed = none) {x : ℕ} {h : Hash} {off : ℕ} {c : Ulid}
    (hx : l'.claimAt x = some (h, off, c)) : h ∉ removed := by
  intro hrem
  rcases hdelta : l'.delta.lbamap.lookupWithClaimant x with _ | ⟨h', off', c'⟩
  · rw [hlater.claimAt_of_bare hdelta] at hx
    have href := (hl.isReferenced_materialised h).mpr ⟨x, off, c, hx⟩
    rw [hview h hrem] at href
    cases href
  · rw [claimAt_eq, hdelta] at hx
    cases hx
    have href : l'.delta.lbamap.isReferenced h = true := by
      rw [hl'.delta.isReferenced_iff]
      exact ⟨x, off, by rw [LbaMap.lookup_eq_map, hdelta]; rfl⟩
    rw [deltaClaimsAny_eq_none_iff.mp hfree h hrem] at href
    cases href

end MapLayers

namespace Volume

variable {v : Volume}

/-- A claim over the open epoch's map covers what it covered and its own range. -/
theorem covers_insert (hinv : v.maps.delta.lbamap.Inv) {lba len : ℕ} (hlen : 0 < len) (hash : Hash)
    (x : ℕ) (hx : (v.maps.delta.lbamap.lookupWithClaimant x).isSome = true) :
    ((v.maps.delta.lbamap.insert lba len hash v.wal).lookupWithClaimant x).isSome = true := by
  rw [LbaMap.insert, hinv.lookupWithClaimant_insertInner hlen]
  split_ifs
  · rfl
  · exact hx

theorem later_writeCommit (hinv : v.maps.delta.lbamap.Inv) {len : ℕ} (hlen : 0 < len) (lba : ℕ)
    (hash : Hash) (codec : Codec) (storedLength bodyOffset : ℕ) :
    v.maps.Later (v.writeCommit lba len hash codec storedLength bodyOffset).maps := by
  obtain ⟨y, loc, heq, -, hy⟩ := v.writeCommit_eq lba len hash codec storedLength bodyOffset
  have hbodies := fun h => v.isSome_lookup_commit (h := h)
    (.write lba len hash codec storedLength bodyOffset)
  rw [commit] at hbodies
  rw [heq] at hbodies ⊢
  refine ⟨rfl, rfl, fun x hx => covers_insert hinv hlen hash x hx, hbodies, ?_, ?_⟩
  · intro s h hh
    rcases hy with rfl | rfl | ⟨-, rfl⟩
    · exact hh
    · rw [lookupJournal_insertJournalIfAbsent]
      split_ifs
      · simp
      · exact hh
    · rw [lookupJournal, (insertIfAbsent_frame _ _ _).2]
      exact hh
  · rcases hy with rfl | rfl | ⟨-, rfl⟩
    · rfl
    · exact (insertJournalIfAbsent_frame _ _ _ _).2
    · exact (insertIfAbsent_frame _ _ _).1

variable {c : Commit}

theorem Epoch.later_commit (hv : v.Epoch) (hc : c.Fits) : v.maps.Later (v.commit c).maps := by
  cases c with
  | zero startLba lbaCount =>
    exact ⟨rfl, rfl, fun x hx => covers_insert hv.inv hc.1 ZERO_HASH x hx, fun _ h => h,
      fun _ _ h => h, rfl⟩
  | write lba len hash codec storedLength bodyOffset => exact later_writeCommit hv.inv hc.1 _ _ _ _ _

theorem Epoch.commit (hv : v.Epoch) (hc : c.Fits) : (v.commit c).Epoch := by
  have hcs : ∀ c' ∈ [c], c'.Fits := by simpa using hc
  exact hv.commits hcs

/-- The write path leaves the body it claims: in the journal tier under the WAL, or located. -/
theorem findsBody_writeCommit (v : Volume) (lba len : ℕ) (hash : Hash) (codec : Codec)
    (storedLength bodyOffset : ℕ) :
    (v.writeCommit lba len hash codec storedLength bodyOffset).maps.findsBody v.wal hash = true := by
  simp only [MapLayers.findsBody, Bool.or_eq_true]
  left
  simp only [writeCommit]
  split_ifs with hj hres hres
  · exact .inl hres
  · rw [MapLayers.isSome_lookupJournal_iff]
    rw [lookupJournal_insertJournalIfAbsent, if_pos ⟨rfl, rfl⟩]
    simp
  · exact .inr hres
  · rw [MapLayers.locates_iff]
    rw [lookup_insertIfAbsent]
    simp

/-- A claim of the open epoch's own range is its own, any other one was there before. -/
theorem claimsResolve_insert {l : MapLayers} (hinv : v.maps.delta.lbamap.Inv)
    (hlater : v.maps.Later l) {lba len : ℕ} {hash : Hash} (hlen : 0 < len)
    (hmap : l.delta.lbamap = v.maps.delta.lbamap.insert lba len hash v.wal)
    (hbody : hash = ZERO_HASH ∨ l.findsBody v.wal hash = true) (hres : v.maps.ClaimsResolve) :
    l.ClaimsResolve := by
  intro x h off cl hx
  have hinsert := hinv.lookupWithClaimant_insertInner (s := lba) hlen 0 hash v.wal x
  rw [MapLayers.claimAt_eq, hmap, LbaMap.insert, hinsert] at hx
  split_ifs at hx with hin
  · obtain ⟨rfl, -, rfl⟩ : hash = h ∧ _ ∧ v.wal = cl := by simpa using hx
    exact hbody
  · rw [hlater.claimBelow, ← MapLayers.claimAt_eq] at hx
    exact (hres x h off cl hx).imp_right hlater.findsBody

theorem claimsResolve_writeCommit (hinv : v.maps.delta.lbamap.Inv) {len : ℕ} (hlen : 0 < len)
    (lba : ℕ) (hash : Hash) (codec : Codec) (storedLength bodyOffset : ℕ)
    (hres : v.maps.ClaimsResolve) :
    (v.writeCommit lba len hash codec storedLength bodyOffset).maps.ClaimsResolve :=
  claimsResolve_insert hinv (later_writeCommit hinv hlen _ _ _ _ _) hlen rfl
    (.inr (v.findsBody_writeCommit lba len hash codec storedLength bodyOffset)) hres

theorem Epoch.claimsResolve_commit (hv : v.Epoch) (hc : c.Fits) (hres : v.maps.ClaimsResolve) :
    (v.commit c).maps.ClaimsResolve := by
  cases c with
  | zero startLba lbaCount =>
    exact claimsResolve_insert hv.inv (hv.later_commit hc) hc.1 rfl (.inl rfl) hres
  | write lba len hash codec storedLength bodyOffset =>
    exact claimsResolve_writeCommit hv.inv hc.1 _ _ _ _ _ hres

/-- Guest writes strand no claim. -/
theorem Epoch.claimsResolve_commits (hv : v.Epoch) {cs : List Commit} (hcs : ∀ c ∈ cs, c.Fits)
    (hres : v.maps.ClaimsResolve) : (v.commits cs).maps.ClaimsResolve := by
  induction cs generalizing v with
  | nil => exact hres
  | cons c cs ih =>
    have hc := hcs c mem_cons_self
    exact ih (hv.commit hc) (fun c' hc' => hcs c' (mem_cons_of_mem _ hc'))
      (hv.claimsResolve_commit hc hres)

/-- Guest writes only add to the open epoch. -/
theorem Epoch.later_commits (hv : v.Epoch) {cs : List Commit} (hcs : ∀ c ∈ cs, c.Fits) :
    v.maps.Later (v.commits cs).maps := by
  induction cs generalizing v with
  | nil => exact .refl _
  | cons c cs ih =>
    have hc := hcs c mem_cons_self
    exact (hv.later_commit hc).trans
      (ih (hv.commit hc) fun c' hc' => hcs c' (mem_cons_of_mem _ hc'))

end Volume

end Elide
