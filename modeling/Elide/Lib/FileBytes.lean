import Mathlib.Data.List.Basic
import Mathlib.Data.BitVec

/-!
# Bytes of files

A file is the list of its bytes. A write at an offset beyond the end leaves a hole, which reads as
zeroes. Two files are compared on a range (`SameAt`), and copying ranges of one into the other only
adds to where they are the same.

A `Bitset` is the bytes of a bit set, the lowest bit of the first byte first.
-/

/-- The bytes of a file. -/
abbrev FileBytes := List UInt8

namespace FileBytes

open List

/-- The bytes of a range, fewer if the file ends in it. -/
def slice (f : FileBytes) (off len : ℕ) : FileBytes := (f.drop off).take len

/-- Write at an offset, over what is there. -/
def writeAt (f : FileBytes) (off : ℕ) (bytes : FileBytes) : FileBytes :=
  if bytes = [] then f
  else (f ++ List.replicate (off - f.length) 0).take off ++ bytes ++ f.drop (off + bytes.length)

theorem length_slice (f : FileBytes) (off len : ℕ) :
    (f.slice off len).length = min len (f.length - off) := by
  rw [slice, length_take, length_drop]

variable {f : FileBytes} {off : ℕ}

theorem getElem?_slice {len i : ℕ} (hi : i < len) : (f.slice off len)[i]? = f[off + i]? := by
  rw [slice, getElem?_take_of_lt hi, getElem?_drop]

/-- A range of a range. -/
theorem slice_slice {len o l : ℕ} (h : o + l ≤ len) :
    (f.slice off len).slice o l = f.slice (off + o) l := by
  rw [slice, slice, drop_take, take_take, drop_drop]
  congr 1
  omega

variable {bytes : FileBytes}

/-- In the written range there are the written bytes. -/
theorem getElem?_writeAt_inside {i : ℕ} (hoff : off ≤ i)
    (hi : i < off + bytes.length) : (f.writeAt off bytes)[i]? = bytes[i - off]? := by
  have hne : bytes ≠ [] := by
    rintro rfl
    simp only [length_nil] at hi
    omega
  have hlen : ((f ++ replicate (off - f.length) 0).take off).length = off := by
    simp only [length_take, length_append, length_replicate]
    omega
  rw [writeAt, if_neg hne, append_assoc, getElem?_append_right (by omega), hlen,
    getElem?_append_left (by omega)]

/-- Beyond it the file is as it was. -/
theorem getElem?_writeAt_after {i : ℕ} (hi : off + bytes.length ≤ i) :
    (f.writeAt off bytes)[i]? = f[i]? := by
  rw [writeAt]
  split_ifs with hne
  · rfl
  · have hlen : ((f ++ replicate (off - f.length) 0).take off ++ bytes).length =
        off + bytes.length := by
      simp only [length_append, length_take, length_replicate]
      omega
    rw [getElem?_append_right (by omega), getElem?_drop]
    congr 1
    omega

/-- Before it too, up to the end of the file. -/
theorem getElem?_writeAt_before {i : ℕ} (hi : i < off) (hf : i < f.length) :
    (f.writeAt off bytes)[i]? = f[i]? := by
  rw [writeAt]
  split_ifs with hne
  · rfl
  · rw [append_assoc, getElem?_append_left, getElem?_take_of_lt hi, getElem?_append_left hf]
    simp only [length_take, length_append]
    omega

/-- A write inside the file keeps its length. -/
theorem length_writeAt (h : off + bytes.length ≤ f.length) :
    (f.writeAt off bytes).length = f.length := by
  rw [writeAt]
  split_ifs with hne
  · rfl
  · simp only [length_append, length_take, length_drop]
    omega

/-- The files have the same bytes in the range. -/
def SameAt (f g : FileBytes) (off len : ℕ) : Prop :=
  ∀ i, off ≤ i → i < off + len → f[i]? = g[i]?

theorem sameAt_zero (f g : FileBytes) (off : ℕ) : SameAt f g off 0 := by
  intro i h₁ h₂
  omega

/-- A copied range is the same. -/
theorem sameAt_writeAt_slice {g : FileBytes} {len : ℕ} (hlen : (g.slice off len).length = len) :
    SameAt (f.writeAt off (g.slice off len)) g off len := by
  intro i hoff hi
  rw [getElem?_writeAt_inside hoff (by omega), getElem?_slice (by omega)]
  congr 1
  omega

/-- Copying a range leaves what was the same. -/
theorem SameAt.writeAt_slice {g : FileBytes} {len o l : ℕ} (h : SameAt f g o l)
    (hlen : (g.slice off len).length = len) : SameAt (f.writeAt off (g.slice off len)) g o l := by
  intro i hoff hi
  rcases lt_or_ge i off with hbefore | hoff'
  · rcases Nat.eq_zero_or_pos len with rfl | hpos
    · exact h i hoff hi
    · -- the copied range lies in `g`, so `g` and with it `f` has a byte here
      have hg : i < g.length := by
        rw [length_slice] at hlen
        omega
      have hf : i < f.length := by
        have hi := h i hoff hi
        rw [getElem?_eq_getElem hg] at hi
        exact (List.getElem?_eq_some_iff.mp hi).1
      rw [getElem?_writeAt_before hbefore hf]
      exact h i hoff hi
  · rcases lt_or_ge i (off + len) with hinside | hafter
    · exact sameAt_writeAt_slice hlen i hoff' hinside
    · rw [getElem?_writeAt_after (by omega)]
      exact h i hoff hi

variable {pieces : List (ℕ × ℕ)}

section

variable {g : FileBytes} (hin : ∀ p ∈ pieces, p.1 + p.2 ≤ g.length)
include hin

/-- The files are the same in every piece that was copied, and where they were the same before. -/
theorem sameAt_foldl_copy :
    (∀ o l, f.SameAt g o l →
      (pieces.foldl (fun f p => f.writeAt p.1 (g.slice p.1 p.2)) f).SameAt g o l) ∧
    ∀ p ∈ pieces,
      (pieces.foldl (fun f p => f.writeAt p.1 (g.slice p.1 p.2)) f).SameAt g p.1 p.2 := by
  induction pieces generalizing f with
  | nil => exact ⟨fun _ _ h => h, fun p hp => absurd hp not_mem_nil⟩
  | cons q pieces ih =>
    have hlen : (g.slice q.1 q.2).length = q.2 := by
      have hq := hin q mem_cons_self
      rw [length_slice]
      omega
    obtain ⟨hkeep, hpieces⟩ :=
      ih (f := f.writeAt q.1 (g.slice q.1 q.2)) fun p hp => hin p (mem_cons_of_mem _ hp)
    refine ⟨fun o l h => hkeep o l (h.writeAt_slice hlen), fun p hp => ?_⟩
    rcases mem_cons.mp hp with rfl | hp
    · exact hkeep _ _ (sameAt_writeAt_slice hlen)
    · exact hpieces p hp

theorem length_foldl_copy (hlen : f.length = g.length) :
    (pieces.foldl (fun f p => f.writeAt p.1 (g.slice p.1 p.2)) f).length = g.length := by
  induction pieces generalizing f with
  | nil => exact hlen
  | cons q pieces ih =>
    have hq := hin q mem_cons_self
    refine ih (fun p hp => hin p (mem_cons_of_mem _ hp)) ?_
    rw [length_writeAt, hlen]
    rw [length_slice]
    omega

/-- **Copying pieces that cover a file gives the file.** -/
theorem foldl_copy_eq (hlen : f.length = g.length)
    (hcover : ∀ i < g.length, ∃ p ∈ pieces, p.1 ≤ i ∧ i < p.1 + p.2) :
    pieces.foldl (fun f p => f.writeAt p.1 (g.slice p.1 p.2)) f = g := by
  refine ext_getElem? fun i => ?_
  rcases lt_or_ge i g.length with hi | hi
  · obtain ⟨p, hp, hlo, hhi⟩ := hcover i hi
    exact (sameAt_foldl_copy hin).2 p hp i hlo hhi
  · rw [getElem?_eq_none hi, getElem?_eq_none]
    rw [length_foldl_copy hin hlen]
    exact hi

end

end FileBytes

/-- The bytes of a bit set. -/
abbrev Bitset := List (BitVec 8)

namespace Bitset

variable (b : Bitset)

/-- Bits beyond the end are not set. -/
def get (i : ℕ) : Bool := (b[i / 8]?).any fun byte => byte.getLsbD (i % 8)

/-- Set the bit `i`. -/
def set (i : ℕ) : Bitset := b.modify (i / 8) (· ||| BitVec.twoPow 8 (i % 8))

/-- The bytes for `n` bits, none of them set. -/
def zero (n : ℕ) : Bitset := List.replicate ((n + 7) / 8) 0

/-- Fill up to the bytes for `n` bits. -/
def resize (n : ℕ) : Bitset := b ++ List.replicate ((n + 7) / 8 - b.length) 0

/-- Set each of the bits. -/
def setAll (is : List ℕ) : Bitset := is.foldl set b

theorem get_zero (n i : ℕ) : (zero n).get i = false := by
  rw [get, zero, List.getElem?_replicate]
  split_ifs
  · simp
  · rfl

theorem length_set (i : ℕ) : (b.set i).length = b.length := List.length_modify ..

/-- A bit is set afterwards if it is the new one or was set before. -/
theorem get_set {b : Bitset} {i : ℕ} (hi : i / 8 < b.length) (j : ℕ) :
    (b.set i).get j = (decide (j = i) || b.get j) := by
  rw [get, get, set, List.getElem?_modify]
  by_cases hbyte : i / 8 = j / 8
  · rw [← hbyte, List.getElem?_eq_getElem hi]
    have hbit : j = i ↔ j % 8 = i % 8 := by omega
    have hlt : i % 8 < 8 := Nat.mod_lt _ (by omega)
    simp [hbit, Bool.or_comm, eq_comm, hlt]
  · have hne : j ≠ i := fun h => hbyte (by rw [h])
    simp [hbyte, hne]

theorem get_setAll {b : Bitset} {is : List ℕ} (h : ∀ i ∈ is, i / 8 < b.length) (j : ℕ) :
    (b.setAll is).get j = (decide (j ∈ is) || b.get j) := by
  induction is generalizing b with
  | nil => simp [setAll]
  | cons i is ih =>
    have hrest : ∀ k ∈ is, k / 8 < (b.set i).length := by
      intro k hk
      rw [length_set]
      exact h k (List.mem_cons_of_mem _ hk)
    have hset := get_set (h i List.mem_cons_self) j
    rw [setAll, List.foldl_cons]
    rw [show is.foldl set (b.set i) = (b.set i).setAll is from rfl, ih hrest, hset]
    simp [Bool.or_comm, Bool.or_assoc]

end Bitset
