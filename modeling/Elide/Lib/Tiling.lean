import Mathlib.Algebra.BigOperators.Group.List.Basic
import Mathlib.Order.Basic

/-!
# Tilings of a line of cells

A line of cells indexed by `ℕ`, some of them covered. A covered cell holds a value and a mark
that says whether a tile starts there. Laying one tiling over another hides the cells it covers
and cuts the tiles underneath it: where a cover ends in the middle of a tile, the rest of that
tile becomes a tile of its own, so the first cell past the cover gains a start mark.

Laying over is associative and has the bare line as its unit, so tilings form a monoid
(`Tiling.instMonoid`). That is the whole point: a map that is built by overwriting ranges denotes
a product, and replaying a map's own tiles over another map denotes the product of the two. The
marks make the product remember the division into tiles and not only the values.
-/

/-- A line of cells, each bare or holding a value and a start-of-tile mark. -/
def Tiling (α : Type*) := ℕ → Option (α × Bool)

namespace Tiling

variable {α : Type*}

@[ext] theorem ext {t t' : Tiling α} (h : ∀ x, t x = t' x) : t = t' := funext h

variable (t : Tiling α)

/-- The cell before `x` is covered, so a cover of it ends at `x` or runs through it. -/
def coveredBefore : ℕ → Bool
  | 0 => false
  | x + 1 => (t x).isSome

/-- Lay `top` over `bottom`. -/
def lay (bottom top : Tiling α) : Tiling α := fun x =>
  match top x with
  | some c => some c
  | none => (bottom x).map fun c => (c.1, c.2 || top.coveredBefore x)

/-- The line with no tile. -/
def bare : Tiling α := fun _ => none

theorem lay_apply_of_some {bottom top : Tiling α} {x : ℕ} {c : α × Bool} (h : top x = some c) :
    lay bottom top x = some c := by
  simp [lay, h]

theorem lay_apply_of_none {bottom top : Tiling α} {x : ℕ} (h : top x = none) :
    lay bottom top x = (bottom x).map fun c => (c.1, c.2 || top.coveredBefore x) := by
  simp [lay, h]

theorem isSome_lay (bottom top : Tiling α) (x : ℕ) :
    (lay bottom top x).isSome = ((bottom x).isSome || (top x).isSome) := by
  cases h : top x <;> simp [lay, h]

theorem coveredBefore_lay (bottom top : Tiling α) (x : ℕ) :
    (lay bottom top).coveredBefore x = (bottom.coveredBefore x || top.coveredBefore x) := by
  cases x with
  | zero => rfl
  | succ x => exact isSome_lay bottom top x

theorem lay_assoc (a b c : Tiling α) : lay (lay a b) c = lay a (lay b c) := by
  ext1 x
  cases hc : c x with
  | some v => rw [lay_apply_of_some hc, lay_apply_of_some (lay_apply_of_some hc)]
  | none =>
    rw [lay_apply_of_none hc]
    cases hb : b x with
    | some v =>
      have hbc : lay b c x = some (v.1, v.2 || c.coveredBefore x) := by
        rw [lay_apply_of_none hc, hb]; rfl
      rw [lay_apply_of_some hb, lay_apply_of_some hbc]
      rfl
    | none =>
      have hbc : lay b c x = none := by rw [lay_apply_of_none hc, hb]; rfl
      rw [lay_apply_of_none hb, lay_apply_of_none hbc, coveredBefore_lay]
      cases a x <;> simp [Bool.or_assoc]

theorem bare_lay : lay bare t = t := by
  ext1 x
  cases h : t x <;> simp [lay, h, bare]

theorem lay_bare : lay t bare = t := by
  ext1 x
  have hcov : coveredBefore (bare : Tiling α) x = false := by cases x <;> rfl
  rw [lay_apply_of_none rfl, hcov]
  cases t x <;> simp

/-- Tilings under laying over, bottom first. -/
instance instMonoid : Monoid (Tiling α) where
  mul := lay
  one := bare
  mul_assoc := lay_assoc
  one_mul := bare_lay
  mul_one := lay_bare

theorem mul_def (a b : Tiling α) : a * b = lay a b := rfl

/-- The value held at a cell, without its mark. -/
def value (x : ℕ) : Option α := (t x).map Prod.fst

@[simp] theorem value_one (x : ℕ) : (1 : Tiling α).value x = none := rfl

/-- Values need no marks: the upper one wins where it is present. -/
theorem value_mul (a b : Tiling α) (x : ℕ) : (a * b).value x = (b.value x).or (a.value x) := by
  rw [mul_def, value, value, value]
  cases h : b x with
  | some c => simp [lay, h]
  | none => cases ha : a x <;> simp [lay, h, ha]

/-- In a product the last factor that covers a cell gives its value. -/
theorem value_prod (ts : List (Tiling α)) (x : ℕ) :
    ts.prod.value x = ts.reverse.findSome? fun t => t.value x := by
  induction ts with
  | nil => rfl
  | cons t ts ih =>
    rw [List.prod_cons, value_mul, ih]
    cases h : t.value x <;> simp [h]

/-- Two tilings with no cell in common, the upper one starting past every cell of the lower one:
laying one over the other cuts nothing, so the product is the union. -/
theorem mul_apply_of_lt {a b : Tiling α} {n : ℕ} (ha : ∀ x, n ≤ x → a x = none)
    (hb : ∀ x < n, b x = none) (x : ℕ) : (a * b) x = if x < n then a x else b x := by
  rw [mul_def]
  by_cases hx : x < n
  · have hcov : b.coveredBefore x = false := by
      cases x with
      | zero => rfl
      | succ x => simp [coveredBefore, hb x (by omega)]
    rw [lay_apply_of_none (hb x hx), hcov, if_pos hx]
    cases a x <;> simp
  · rw [if_neg hx]
    cases hbx : b x with
    | some c => rw [lay_apply_of_some hbx]
    | none => rw [lay_apply_of_none hbx, ha x (by omega)]; rfl

/-! ## One tile, and the hole it makes -/

/-- The line covered by one tile on `[start, start + len)`, with value `f i` at its `i`-th cell. -/
def tile (start len : ℕ) (f : ℕ → α) : Tiling α := fun x =>
  if start ≤ x ∧ x < start + len then some (f (x - start), decide (x = start)) else none

/-- The line with the cells `[lo, hi)` taken out. A tile cut at `hi` starts anew there. -/
def punch (t : Tiling α) (lo hi : ℕ) : Tiling α := fun x =>
  if lo ≤ x ∧ x < hi then none else (t x).map fun c => (c.1, c.2 || decide (x = hi))

theorem mul_tile_apply (t : Tiling α) {start len : ℕ} (hlen : 0 < len) (f : ℕ → α) (x : ℕ) :
    (t * tile start len f) x =
      if start ≤ x ∧ x < start + len then some (f (x - start), decide (x = start))
      else t.punch start (start + len) x := by
  rw [mul_def]
  by_cases hx : start ≤ x ∧ x < start + len
  · rw [if_pos hx]
    exact lay_apply_of_some (if_pos hx)
  · have hcov : (tile start len f).coveredBefore x = decide (x = start + len) := by
      cases x with
      | zero => simp only [coveredBefore]; symm; rw [decide_eq_false_iff_not]; omega
      | succ x =>
        simp only [coveredBefore, tile]
        by_cases hx' : start ≤ x ∧ x < start + len
        · rw [if_pos hx']; symm; simp only [Option.isSome_some, decide_eq_true_iff]; omega
        · rw [if_neg hx']; symm; simp only [Option.isSome_none, decide_eq_false_iff_not]; omega
    rw [if_neg hx, punch, if_neg hx, lay_apply_of_none (if_neg hx), hcov]

end Tiling
