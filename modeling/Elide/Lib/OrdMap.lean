import Mathlib.Data.List.Sort
import Mathlib.Order.Basic

/-!
# Ordered maps with range queries

A finite map from a linearly ordered key type, kept as the list of its entries in strictly
increasing key order. The operations are the ones a B-tree map offers: point access, insertion,
removal, the last entry below a bound, and the entries of a half-open range.

## How proofs use it

Everything is characterised through `get?`. `get?_insert` and `get?_erase` say what an update
does to every key, `pred?_eq_some_iff` and `floor?_eq_some_iff` say what the bounded queries
return in terms of `get?`, and `ext_get?` says that a map is its `get?` function. A proof about a
client therefore never looks at the list.

The one place where the list matters is counting: `entries_insert_perm` and
`entries_erase_perm` say how the multiset of entries changes under an update.
-/

/-- A finite map kept as its entries in strictly increasing key order. -/
structure OrdMap (κ ν : Type*) [LinearOrder κ] where
  /-- The entries, in key order. -/
  entries : List (κ × ν)
  /-- Keys strictly increase along the list, so no key occurs twice. -/
  sorted : entries.Pairwise fun a b => a.1 < b.1

namespace OrdMap

open List Option

variable {κ ν : Type*} [LinearOrder κ]

/-! ## Operations -/

/-- The map with no entries. -/
def empty : OrdMap κ ν := ⟨[], List.Pairwise.nil⟩

instance : Inhabited (OrdMap κ ν) := ⟨empty⟩

variable (m : OrdMap κ ν)

/-- The value stored at `k`. -/
def get? (k : κ) : Option ν :=
  (m.entries.find? fun e => decide (e.1 = k)).map Prod.snd

/-- Insert into a key-ordered list, replacing an entry with the same key. -/
def insertEntry (k : κ) (v : ν) : List (κ × ν) → List (κ × ν)
  | [] => [(k, v)]
  | e :: rest =>
    if k < e.1 then (k, v) :: e :: rest
    else if k = e.1 then (k, v) :: rest
    else e :: insertEntry k v rest

variable {k : κ} {v : ν} {l : List (κ × ν)}

theorem mem_insertEntry {a : κ × ν} (h : a ∈ insertEntry k v l) : a = (k, v) ∨ a ∈ l := by
  induction l with
  | nil => simpa [insertEntry] using h
  | cons e rest ih =>
    rw [insertEntry] at h
    split_ifs at h <;> grind

theorem insertEntry_sorted (k : κ) (v : ν) (h : l.Pairwise fun a b => a.1 < b.1) :
    (insertEntry k v l).Pairwise fun a b => a.1 < b.1 := by
  induction l with
  | nil => simp [insertEntry]
  | cons e rest ih =>
    obtain ⟨he, hrest⟩ := pairwise_cons.mp h
    rw [insertEntry]
    split_ifs with hlt heq
    · refine pairwise_cons.mpr ⟨fun a ha => ?_, h⟩
      rcases mem_cons.mp ha with rfl | ha
      · exact hlt
      · exact hlt.trans (he a ha)
    · exact pairwise_cons.mpr ⟨fun a ha => heq ▸ he a ha, hrest⟩
    · refine pairwise_cons.mpr ⟨fun a ha => ?_, ih hrest⟩
      rcases mem_insertEntry ha with rfl | ha
      · exact lt_of_le_of_ne (not_lt.mp hlt) (Ne.symm heq)
      · exact he a ha

/-- Store `v` at `k`, replacing what was there. -/
def insert (k : κ) (v : ν) : OrdMap κ ν :=
  ⟨insertEntry k v m.entries, insertEntry_sorted k v m.sorted⟩

/-- Remove the entry at `k`. -/
def erase (k : κ) : OrdMap κ ν :=
  ⟨m.entries.filter fun e => decide (e.1 ≠ k), m.sorted.filter _⟩

/-- The last entry whose key satisfies `p`. -/
def findLast? (p : κ → Bool) : Option (κ × ν) :=
  (m.entries.filter fun e => p e.1).getLast?

/-- The last entry strictly below `k`. -/
def pred? (k : κ) : Option (κ × ν) := m.findLast? fun j => decide (j < k)

/-- The last entry at or below `k`. -/
def floor? (k : κ) : Option (κ × ν) := m.findLast? fun j => decide (j ≤ k)

/-- The entries with key in `[lo, hi)`, in key order. -/
def range (lo hi : κ) : List (κ × ν) :=
  m.entries.filter fun e => decide (lo ≤ e.1 ∧ e.1 < hi)

/-! ## Point access -/

variable {m : OrdMap κ ν}

theorem mem_entries_iff : (k, v) ∈ m.entries ↔ m.get? k = some v := by
  obtain ⟨l, hl⟩ := m
  simp only [get?]
  induction l with
  | nil => simp
  | cons e rest ih =>
    obtain ⟨he, hrest⟩ := pairwise_cons.mp hl
    by_cases hk : e.1 = k
    · have hnot : (k, v) ∉ rest := fun hmem => absurd hk (ne_of_lt (he _ hmem))
      simp only [List.find?_cons, hk, decide_true, map_some, some.injEq,
        mem_cons, hnot, or_false]
      exact ⟨fun h => by rw [← h], fun h => Prod.ext hk.symm h.symm⟩
    · have hne : (k, v) ≠ e := fun h => hk (by rw [← h])
      simp only [List.find?_cons, hk, mem_cons, hne, false_or]
      exact ih hrest

@[simp] theorem get?_empty (k : κ) : (empty : OrdMap κ ν).get? k = none := rfl

/-- A map is determined by its point accesses. -/
theorem ext_get? {m' : OrdMap κ ν} (h : ∀ k, m.get? k = m'.get? k) : m = m' := by
  obtain ⟨l, hl⟩ := m
  obtain ⟨l', hl'⟩ := m'
  have hmem : ∀ e : κ × ν, e ∈ l ↔ e ∈ l' := fun e => by
    have h1 := mem_entries_iff (m := ⟨l, hl⟩) (k := e.1) (v := e.2)
    have h2 := mem_entries_iff (m := ⟨l', hl'⟩) (k := e.1) (v := e.2)
    rw [h e.1] at h1
    exact h1.trans h2.symm
  have hnodup : ∀ {s : List (κ × ν)}, s.Pairwise (fun a b => a.1 < b.1) → s.Nodup :=
    fun hs => hs.imp fun hab heq => absurd (congrArg Prod.fst heq) (ne_of_lt hab)
  have hperm : l.Perm l' := (perm_ext_iff_of_nodup (hnodup hl) (hnodup hl')).mpr hmem
  have heq : l = l' :=
    hperm.eq_of_pairwise (fun a b _ _ hab hba => absurd hab (not_lt.mpr hba.le)) hl hl'
  subst heq
  rfl

theorem get?_insert (m : OrdMap κ ν) (k : κ) (v : ν) (j : κ) :
    (m.insert k v).get? j = if j = k then some v else m.get? j := by
  obtain ⟨l, hl⟩ := m
  simp only [insert, get?]
  induction l with
  | nil => by_cases h : j = k <;> simp [insertEntry, eq_comm]
  | cons e rest ih =>
    rw [insertEntry]
    split_ifs <;> simp only [List.find?_cons] <;> grind

theorem get?_erase (m : OrdMap κ ν) (k j : κ) :
    (m.erase k).get? j = if j = k then none else m.get? j := by
  ext v
  rw [← mem_entries_iff]
  by_cases h : j = k
  · simp [erase, h]
  · simp [erase, h, mem_entries_iff]

/-! ## Bounded queries -/

theorem mem_range_iff {lo hi : κ} {e : κ × ν} :
    e ∈ m.range lo hi ↔ m.get? e.1 = some e.2 ∧ lo ≤ e.1 ∧ e.1 < hi := by
  simp [range, ← mem_entries_iff]

theorem range_sorted (m : OrdMap κ ν) (lo hi : κ) :
    (m.range lo hi).Pairwise fun a b => a.1 < b.1 :=
  m.sorted.filter _

/-- The last of a sorted list is the highest. -/
theorem getLast?_eq_some_iff_of_sorted {α : Type*} {f : α → κ} {l : List α}
    (hl : l.Pairwise fun a b => f a < f b) {e : α} :
    l.getLast? = some e ↔ e ∈ l ∧ ∀ b ∈ l, f b ≤ f e := by
  rcases l.eq_nil_or_concat with rfl | ⟨init, last, rfl⟩
  · simp
  · have hlt := (pairwise_append.mp (concat_eq_append ▸ hl)).2.2
    simp only [concat_eq_append, getLast?_append, getLast?_singleton, some_or,
      some.injEq, mem_append, mem_singleton] at hlt ⊢
    constructor
    · rintro rfl
      exact ⟨.inr rfl, fun b hb => hb.elim (fun hb => (hlt b hb _ rfl).le) fun hb => hb ▸ le_rfl⟩
    · rintro ⟨he | rfl, hmax⟩
      · exact absurd (hlt e he last rfl) (not_lt.mpr (hmax last (.inr rfl)))
      · rfl

theorem findLast?_eq_some_iff {p : κ → Bool} : m.findLast? p = some (k, v) ↔
      m.get? k = some v ∧ p k = true ∧ ∀ j, p j = true → k < j → m.get? j = none := by
  rw [findLast?, getLast?_eq_some_iff_of_sorted (m.sorted.filter _), mem_filter, mem_entries_iff,
    and_assoc]
  refine and_congr_right fun _ => and_congr_right fun _ => ⟨fun h j hj hkj => ?_, ?_⟩
  · refine eq_none_iff_forall_not_mem.mpr fun w hw => ?_
    exact absurd (h (j, w) (mem_filter.mpr ⟨mem_entries_iff.mpr hw, hj⟩)) (not_le.mpr hkj)
  · rintro h ⟨j, w⟩ hb
    obtain ⟨hb, hj⟩ := mem_filter.mp hb
    by_contra hkj
    exact absurd (mem_entries_iff.mp hb) (by rw [h j hj (not_le.mp hkj)]; simp)

theorem pred?_eq_some_iff {j : κ} : m.pred? k = some (j, v) ↔
      m.get? j = some v ∧ j < k ∧ ∀ i < k, j < i → m.get? i = none := by
  simp [pred?, findLast?_eq_some_iff]

theorem floor?_eq_some_iff {j : κ} : m.floor? k = some (j, v) ↔
      m.get? j = some v ∧ j ≤ k ∧ ∀ i ≤ k, j < i → m.get? i = none := by
  simp [floor?, findLast?_eq_some_iff]

/-! ## Counting -/

theorem insertEntry_perm (v : ν) (h : ∀ e ∈ l, e.1 ≠ k) :
    (insertEntry k v l).Perm ((k, v) :: l) := by
  induction l with
  | nil => exact List.Perm.refl _
  | cons e rest ih =>
    rw [insertEntry]
    split_ifs with hlt heq
    · exact List.Perm.refl _
    · exact absurd heq.symm (h e mem_cons_self)
    · exact ((ih fun a ha => h a (mem_cons_of_mem _ ha)).cons e).trans (List.Perm.swap _ _ _)

/-- A fresh key adds one entry to the multiset of entries. -/
theorem entries_insert_perm (v : ν) (h : m.get? k = none) :
    (m.insert k v).entries.Perm ((k, v) :: m.entries) := by
  refine insertEntry_perm v ?_
  rintro ⟨j, w⟩ hmem rfl
  rw [mem_entries_iff.mp hmem] at h
  simp at h

/-- Removing a present key takes one entry out of the multiset of entries. -/
theorem entries_erase_perm (h : m.get? k = some v) :
    m.entries.Perm ((k, v) :: (m.erase k).entries) := by
  have hback : (m.erase k).insert k v = m := by
    refine ext_get? fun j => ?_
    rw [get?_insert, get?_erase]
    split_ifs with hj
    · rw [hj, h]
    · rfl
  have hfree : (m.erase k).get? k = none := by rw [get?_erase, if_pos rfl]
  have hperm := entries_insert_perm v hfree
  rwa [hback] at hperm

end OrdMap
