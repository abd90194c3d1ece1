import Mathlib.Data.List.AList
import Mathlib.Data.List.Count

/-!
# Reference counts kept in a map

Counts held in a finite map with zero counts removed eagerly: a key is present exactly when its
count is positive. `Refcount.Exact c l` says that `c` holds the counts of the list `l`, and it is
the only fact about such a map that a client needs. Taking a reference conses onto the list,
dropping one takes an element off, and reordering the list changes nothing.

The list is often what the values of another map name. `AList.flatMap_entries_perm` pulls one key
of that map out in front, which is what an update of the key needs.
-/

namespace AList

variable {α γ : Type*} {β : α → Type*} [DecidableEq α]

/-- What a map's entries name: what the entry of `a` names, then what the others do. -/
theorem flatMap_entries_perm (s : AList β) (a : α) (f : Sigma β → List γ) :
    (s.entries.flatMap f).Perm
      (((s.lookup a).elim [] fun b => f ⟨a, b⟩) ++ (s.erase a).entries.flatMap f) := by
  by_cases ha : a ∈ s.keys
  · obtain ⟨b, l₁, l₂, -, heq, herase⟩ := List.exists_of_kerase ha
    have hlook : s.lookup a = some b := mem_lookup_iff.mpr (by rw [heq]; simp)
    have hrest : (s.erase a).entries = l₁ ++ l₂ := herase
    rw [hlook, hrest, heq]
    simp only [List.flatMap_append]
    exact List.perm_append_comm_assoc _ _ _
  · have hlook : s.lookup a = none := lookup_eq_none.mpr ha
    have hrest : (s.erase a).entries = s.entries := List.kerase_of_notMem_keys ha
    rw [hlook, hrest]
    exact List.Perm.refl _

theorem flatMap_entries_insert (s : AList β) (a : α) (b : β a) (f : Sigma β → List γ) :
    (s.insert a b).entries.flatMap f = f ⟨a, b⟩ ++ (s.erase a).entries.flatMap f := by
  rfl

section

variable {δ : Type*} (s : AList fun _ : α => γ) (a k : α)

theorem lookup_insert_ite (b : γ) :
    (s.insert a b).lookup k = if k = a then some b else s.lookup k := by
  split_ifs with hk
  · rw [hk]
    exact lookup_insert s
  · exact lookup_insert_ne hk

theorem lookup_erase_ite : (s.erase a).lookup k = if k = a then none else s.lookup k := by
  split_ifs with hk
  · rw [hk]
    exact lookup_erase a s
  · exact lookup_erase_ne hk

/-- A map of maps after one of them is dropped. -/
theorem bind_lookup_erase (f : γ → Option δ) :
    ((s.erase a).lookup k).bind f = if k = a then none else (s.lookup k).bind f := by
  rw [lookup_erase_ite, apply_ite (Option.bind · f), Option.bind_none]

end

end AList

namespace Refcount

variable {α : Type*} [DecidableEq α] (c : AList fun _ : α => ℕ)

/-- Take a reference: an absent key starts at zero. -/
def incref (a : α) : AList fun _ : α => ℕ :=
  c.insert a ((c.lookup a).getD 0 + 1)

/-- Drop a reference, removing a key whose count reaches zero. Dropping a reference that was
never taken leaves the map alone. -/
def decref (a : α) : AList fun _ : α => ℕ :=
  match c.lookup a with
  | some 1 => c.erase a
  | some n => c.insert a (n - 1)
  | none => c

/-- `c` holds exactly the multiplicities of the elements of `l`. -/
def Exact (l : List α) : Prop :=
  ∀ a, c.lookup a = if a ∈ l then some (l.count a) else none

variable {c : AList fun _ : α => ℕ} {l l' : List α} {a : α}

theorem exact_empty : Exact (∅ : AList fun _ : α => ℕ) [] := by
  intro a
  simp

theorem Exact.perm (h : Exact c l) (hp : l.Perm l') : Exact c l' := by
  intro a
  rw [h a, hp.count_eq, if_congr hp.mem_iff rfl rfl]

theorem Exact.getD (h : Exact c l) (a : α) : (c.lookup a).getD 0 = l.count a := by
  rw [h a]
  split_ifs with ha
  · rfl
  · exact (List.count_eq_zero_of_not_mem ha).symm

theorem Exact.isSome_iff (h : Exact c l) : (c.lookup a).isSome ↔ a ∈ l := by
  rw [h a]
  split_ifs with ha <;> simp [ha]

theorem Exact.incref (h : Exact c l) (a : α) : Exact (incref c a) (a :: l) := by
  intro b
  by_cases hb : b = a
  · subst hb
    rw [Refcount.incref, h.getD]
    simp
  · rw [Refcount.incref, AList.lookup_insert_ne hb, h b]
    simp [hb, List.count_cons_of_ne (Ne.symm hb)]

theorem Exact.decref (h : Exact c (a :: l)) : Exact (decref c a) l := by
  have ha : c.lookup a = some (l.count a + 1) := by rw [h a]; simp
  -- the other keys are the same whether `a` is removed or rewritten
  have hother : ∀ b, b ≠ a → c.lookup b = if b ∈ l then some (l.count b) else none := by
    intro b hb
    rw [h b]
    simp [hb, List.count_cons_of_ne (Ne.symm hb)]
  intro b
  rw [Refcount.decref, ha]
  cases hcount : l.count a with
  | zero =>
    have hnot : a ∉ l := List.count_eq_zero.mp hcount
    by_cases hb : b = a
    · subst hb
      simp [hnot]
    · exact (AList.lookup_erase_ne hb).trans (hother b hb)
  | succ n =>
    have hmem : a ∈ l := List.count_pos_iff.mp (by omega)
    by_cases hb : b = a
    · subst hb
      simp [hmem, hcount]
    · exact (AList.lookup_insert_ne hb).trans (hother b hb)

/-- Taking a list of references, one after the other. -/
theorem Exact.foldl_incref (h : Exact c l) (s : List α) :
    Exact (s.foldl Refcount.incref c) (s ++ l) := by
  induction s generalizing c l with
  | nil => exact h
  | cons a s ih => exact (ih (h.incref a)).perm List.perm_middle

/-- Every reference that is dropped, one after the other, is there to drop. -/
def Drops : (AList fun _ : α => ℕ) → List α → Prop
  | _, [] => True
  | c, a :: s => (c.lookup a).isSome ∧ Drops (decref c a) s

theorem Exact.drops {s : List α} (h : Exact c (s ++ l)) : Drops c s := by
  induction s generalizing c with
  | nil => trivial
  | cons a s ih => exact ⟨h.isSome_iff.mpr List.mem_cons_self, ih (Exact.decref h)⟩

/-- Dropping a list of references, one after the other. -/
theorem Exact.foldl_decref {s : List α} (h : Exact c (s ++ l)) :
    Exact (s.foldl Refcount.decref c) l := by
  induction s generalizing c with
  | nil => exact h
  | cons a s ih => exact ih (Exact.decref h)

end Refcount
