import Mathlib.Data.Nat.Bitwise
import Mathlib.Data.List.Basic
import Mathlib.Tactic.Ring

/-!
# Readers over bytes

A reader moves a cursor over a byte string and returns a value, or fails because the string ends
or because what it holds is not well formed. The two failures are kept apart: a log that was cut
short ends in the middle of a record, and only the first failure may come of that.

`ByteReader.Reads r pos bs a` says that `r`, at position `pos`, takes exactly `bs` for `a`: with
anything after `bs` it succeeds and stops behind `bs`, and on every proper prefix of `bs` it runs
into the end. Readers compose the way byte strings do (`Reads.bind`), so a record's reader is
specified by the readers of its fields.

## Main definitions

* `ByteReader` — a reader; `readU8`, `readBytes`, `readVarint` are the ones records are made of
* `encodeVarint` — the base-128 encoding, low group first
* `toBytes`, `ofBytes` — numbers of a fixed width, low byte first
* `ByteReader.Reads` — what a reader takes

## Main results

* `ByteReader.Reads.bind`
* `ByteReader.reads_varint`
-/

/-- Where a reader is: its position in the whole, and what is still ahead. -/
structure ByteReader.Cursor where
  pos : ℕ
  rest : List UInt8
  deriving DecidableEq, Repr

/-- Why a reader stops. -/
inductive ByteReader.Failure where
  | unexpectedEof
  | invalidData (message : String)
  deriving DecidableEq, Repr

/-- A reader: it moves the cursor and returns a value, or fails. -/
def ByteReader (α : Type) : Type :=
  ByteReader.Cursor → Except ByteReader.Failure (α × ByteReader.Cursor)

namespace ByteReader

open List

variable {α β : Type}

instance : Monad ByteReader where
  pure a := fun c => .ok (a, c)
  bind r k := fun c =>
    match r c with
    | .ok (a, c') => k a c'
    | .error e => .error e

theorem bind_of_ok {r : ByteReader α} {k : α → ByteReader β} {c c' : Cursor} {a : α}
    (h : r c = .ok (a, c')) : (r >>= k) c = k a c' := by
  change (match r c with | .ok (a, c') => k a c' | .error e => .error e) = k a c'
  rw [h]

theorem bind_of_error {r : ByteReader α} {k : α → ByteReader β} {c : Cursor} {e : Failure}
    (h : r c = .error e) : (r >>= k) c = .error e := by
  change (match r c with | .ok (a, c') => k a c' | .error e => .error e) = .error e
  rw [h]

/-- Give up. -/
def fail (e : Failure) : ByteReader α := fun _ => .error e

/-- The position of the next byte. -/
def position : ByteReader ℕ := fun c => .ok (c.pos, c)

/-- The next `n` bytes. -/
def readBytes (n : ℕ) : ByteReader (List UInt8) := fun c =>
  if c.rest.length < n then .error .unexpectedEof
  else .ok (c.rest.take n, ⟨c.pos + n, c.rest.drop n⟩)

/-- The next byte. -/
def readU8 : ByteReader UInt8 := fun c =>
  match c.rest with
  | [] => .error .unexpectedEof
  | b :: rest => .ok (b, ⟨c.pos + 1, rest⟩)

/-! ### Varints -/

/-- Groups of seven bits, low group first; every byte but the last has the top bit set. -/
def encodeGroups : ℕ → ℕ → List UInt8
  | 0, _ => []
  | n + 1, v =>
    if v / 128 = 0 then [UInt8.ofNat (v % 128)]
    else UInt8.ofNat (v % 128 + 128) :: encodeGroups n (v / 128)

/-- The varint of a 64-bit number: ten groups hold it. -/
def encodeVarint (v : ℕ) : List UInt8 := encodeGroups 10 v

/-- Read at most `n` groups into a 64-bit number, the first at `shift`. -/
def readGroups : ℕ → ℕ → ℕ → ByteReader ℕ
  | 0, _, _ => fail (.invalidData "varint overflow")
  | n + 1, shift, result => do
    let b ← readU8
    let result := result ||| ((b.toNat % 128) <<< shift) % 2 ^ 64
    if b.toNat < 128 then pure result else readGroups n (shift + 7) result

/-- A varint of up to 64 bits. -/
def readVarint : ByteReader ℕ := readGroups 10 0 0

/-- A varint that must fit 32 bits. -/
def readVarint32 : ByteReader ℕ := do
  let v ← readVarint
  if v < 2 ^ 32 then pure v else fail (.invalidData "varint32 overflow")

/-! ### Numbers of a fixed width -/

/-- The low `n` bytes of a number, low byte first. -/
def toBytes : ℕ → ℕ → List UInt8
  | 0, _ => []
  | n + 1, v => UInt8.ofNat (v % 256) :: toBytes n (v / 256)

/-- The number a little-endian byte string stands for. -/
def ofBytes (bs : List UInt8) : ℕ := bs.foldr (fun b v => b.toNat + 256 * v) 0

@[simp] theorem length_toBytes (n v : ℕ) : (toBytes n v).length = n := by
  induction n generalizing v with
  | zero => rfl
  | succ n ih => rw [toBytes, length_cons, ih]

theorem ofBytes_toBytes {n v : ℕ} (hv : v < 256 ^ n) : ofBytes (toBytes n v) = v := by
  induction n generalizing v with
  | zero =>
    have h0 : v = 0 := by simpa using hv
    rw [h0]; rfl
  | succ n ih =>
    have hrest : v / 256 < 256 ^ n := Nat.div_lt_of_lt_mul (by rwa [← Nat.pow_succ'])
    have hcons : ofBytes (toBytes (n + 1) v) =
        (UInt8.ofNat (v % 256)).toNat + 256 * ofBytes (toBytes n (v / 256)) := rfl
    rw [hcons, ih hrest, UInt8.toNat_ofNat']
    omega

/-! ### What a reader takes -/

/-- From position `pos` on, `r` takes exactly the bytes `bs`, for `a`. -/
structure Reads (r : ByteReader α) (pos : ℕ) (bs : List UInt8) (a : α) : Prop where
  /-- Whatever follows, the reader stops behind `bs`. -/
  full : ∀ rest, r ⟨pos, bs ++ rest⟩ = .ok (a, ⟨pos + bs.length, rest⟩)
  /-- Cut short, it runs into the end. -/
  short : ∀ p, p <+: bs → p ≠ bs → r ⟨pos, p⟩ = .error .unexpectedEof

namespace Reads

variable {r : ByteReader α} {k : α → ByteReader β} {pos : ℕ} {bs cs : List UInt8} {a : α} {b : β}

/-- **Readers compose as byte strings do.** -/
theorem bind (hr : Reads r pos bs a) (hk : Reads (k a) (pos + bs.length) cs b) :
    Reads (r >>= k) pos (bs ++ cs) b := by
  constructor
  · intro rest
    rw [append_assoc, bind_of_ok (hr.full _), hk.full, length_append, Nat.add_assoc]
  · intro p hp hne
    rcases prefix_or_prefix_of_prefix hp (prefix_append bs cs) with hpb | ⟨q, rfl⟩
    · by_cases heq : p = bs
      · -- the cut is between the two: the second reader has nothing to read
        subst heq
        have hfirst := hr.full []
        rw [append_nil] at hfirst
        rw [bind_of_ok hfirst]
        exact hk.short [] nil_prefix fun hcs => hne (by rw [← hcs, append_nil])
      · exact bind_of_error (hr.short p hpb heq)
    · rw [bind_of_ok (hr.full q)]
      exact hk.short q ((prefix_append_right_inj bs).mp hp) fun hq => hne (by rw [hq])

theorem pure (a : α) (pos : ℕ) : Reads (Pure.pure a : ByteReader α) pos [] a :=
  ⟨fun _ => rfl, fun _ hp hne => absurd (prefix_nil.mp hp) hne⟩

/-- A step that reads nothing. -/
theorem bind_nil (hr : Reads r pos [] a) (hk : Reads (k a) pos cs b) :
    Reads (r >>= k) pos cs b :=
  bind hr hk

/-- A last step that reads nothing. -/
theorem bind_last (hr : Reads r pos bs a) (hk : Reads (k a) (pos + bs.length) [] b) :
    Reads (r >>= k) pos bs b := by
  have h := bind hr hk
  rwa [append_nil] at h

end Reads

theorem reads_position (pos : ℕ) : Reads position pos [] pos :=
  ⟨fun _ => rfl, fun _ hp hne => absurd (prefix_nil.mp hp) hne⟩

theorem reads_bytes (pos : ℕ) (bs : List UInt8) : Reads (readBytes bs.length) pos bs bs := by
  constructor
  · intro rest
    have hlen : ¬ (bs ++ rest).length < bs.length := by simp
    rw [readBytes, if_neg hlen, take_left, drop_left]
  · intro p hp hne
    have hlt : p.length < bs.length := by
      refine lt_of_le_of_ne hp.length_le fun heq => hne (hp.eq_of_length heq)
    exact if_pos hlt

theorem reads_u8 (pos : ℕ) (b : UInt8) : Reads readU8 pos [b] b := by
  refine ⟨fun rest => rfl, fun p hp hne => ?_⟩
  have hnil : p = [] := by
    rcases prefix_cons_iff.mp hp with h | ⟨t, rfl, ht⟩
    · exact h
    · exact absurd (by rw [prefix_nil.mp ht]) hne
  rw [hnil]
  rfl

/-- Reading the groups of `v` at `shift` adds them above the bits already there. -/
theorem reads_groups {n shift result v : ℕ} (hv : v < 128 ^ n) (hpos : 0 < n)
    (hfit : v * 2 ^ shift < 2 ^ 64) (hresult : result < 2 ^ shift) (pos : ℕ) :
    Reads (readGroups n shift result) pos (encodeGroups n v) (result + v * 2 ^ shift) := by
  induction n generalizing shift result v pos with
  | zero => omega
  | succ n ih =>
    -- the low group lands above `result`, and nothing of it is cut off
    have hlow : ∀ g, g ≤ v → result ||| (g <<< shift) % 2 ^ 64 = result + g * 2 ^ shift := by
      intro g hg
      have hle : g * 2 ^ shift ≤ v * 2 ^ shift := Nat.mul_le_mul_right _ hg
      rw [Nat.shiftLeft_eq, Nat.mod_eq_of_lt (lt_of_le_of_lt hle hfit), Nat.or_comm,
        Nat.mul_comm g, ← Nat.two_pow_add_eq_or_of_lt hresult]
      omega
    rw [encodeGroups]
    by_cases hlast : v / 128 = 0
    · have hb : (UInt8.ofNat (v % 128)).toNat = v := by rw [UInt8.toNat_ofNat']; omega
      rw [if_pos hlast]
      refine Reads.bind_last (reads_u8 pos _) ?_
      have hv128 : v < 128 := by omega
      rw [hb, if_pos hv128, Nat.mod_eq_of_lt hv128, hlow v le_rfl]
      exact Reads.pure _ _
    · have hb : (UInt8.ofNat (v % 128 + 128)).toNat = v % 128 + 128 := by
        rw [UInt8.toNat_ofNat']; omega
      have hrest : v / 128 < 128 ^ n := Nat.div_lt_of_lt_mul (by rwa [← Nat.pow_succ'])
      have hn : 0 < n := by
        rcases Nat.eq_zero_or_pos n with rfl | hn
        · omega
        · exact hn
      have hsplit : v % 128 * 2 ^ shift + v / 128 * 2 ^ (shift + 7) = v * 2 ^ shift := by
        conv_rhs => rw [← Nat.mod_add_div v 128]
        ring
      have hnext : result + v % 128 * 2 ^ shift < 2 ^ (shift + 7) := by
        have hg : v % 128 * 2 ^ shift ≤ 127 * 2 ^ shift := Nat.mul_le_mul_right _ (by omega)
        rw [pow_add]
        omega
      rw [if_neg hlast]
      have hhead := reads_u8 pos (UInt8.ofNat (v % 128 + 128))
      refine Reads.bind hhead ?_
      have hmod : (v % 128 + 128) % 128 = v % 128 := by omega
      rw [hb, hmod, hlow _ (by omega)]
      have hih := ih hrest hn (by omega) hnext (pos + [UInt8.ofNat (v % 128 + 128)].length)
      rwa [Nat.add_assoc, hsplit] at hih

/-- **A varint is read back.** -/
theorem reads_varint {v : ℕ} (hv : v < 2 ^ 64) (pos : ℕ) :
    Reads readVarint pos (encodeVarint v) v := by
  have hten : v < 128 ^ 10 := by omega
  have hgroups : Reads (readGroups 10 0 0) pos (encodeGroups 10 v) (0 + v * 2 ^ 0) :=
    reads_groups hten (by omega) (by omega) (by omega) pos
  rwa [pow_zero, Nat.mul_one, Nat.zero_add] at hgroups

theorem reads_varint32 {v : ℕ} (hv : v < 2 ^ 32) (pos : ℕ) :
    Reads readVarint32 pos (encodeVarint v) v := by
  have hv64 : v < 2 ^ 64 := by omega
  refine Reads.bind_last (reads_varint hv64 pos) ?_
  rw [if_pos hv]
  exact Reads.pure _ _

end ByteReader
