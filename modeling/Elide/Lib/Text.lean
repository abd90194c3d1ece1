import Mathlib.Data.List.Basic

/-!
# Text

A text is a list of characters. This has what a line-oriented file format needs: reading a text line
by line (`Text.lines`), splitting at a separator (`Text.splitOnce`), and parts each marked by a
separator in front (`Text.tagged`), with the facts that tell when the parts can be told apart.
-/

/-- A text. -/
abbrev Text := List Char

namespace Text

open List Prod

/-! ### Lines -/

/-- Drop one carriage return at the end. -/
def stripCr (line : Text) : Text :=
  if line.getLast? = some '\r' then line.dropLast else line

/-- The lines after `cur`, which is the part of the first line that has been read, last first. -/
def linesFrom (cur : List Char) : Text → List Text
  | [] => if cur.isEmpty then [] else [cur.reverse]
  | c :: t => if c = '\n' then stripCr cur.reverse :: linesFrom [] t else linesFrom (c :: cur) t

/-- The lines of a text, without their terminators. A carriage return belongs to the terminator, but
not at the end of a last line that has none. -/
def lines (t : Text) : List Text := linesFrom [] t

variable {l : Text}

theorem linesFrom_line (hl : '\n' ∉ l) (cur rest : Text) :
    linesFrom cur (l ++ '\n' :: rest) = stripCr (cur.reverse ++ l) :: lines rest := by
  induction l generalizing cur with
  | nil => simp [linesFrom, lines]
  | cons c l ih =>
    have hc : c ≠ '\n' := fun h => hl (h ▸ mem_cons_self)
    rw [cons_append, linesFrom, if_neg hc, ih fun h => hl (mem_cons_of_mem _ h)]
    simp

/-- The first line, when it is terminated. -/
theorem lines_line (hl : '\n' ∉ l) (rest : Text) :
    lines (l ++ '\n' :: rest) = stripCr l :: lines rest := linesFrom_line hl [] rest

theorem linesFrom_last (hl : '\n' ∉ l) (cur : Text) :
    linesFrom cur l = if (cur.reverse ++ l).isEmpty then [] else [cur.reverse ++ l] := by
  induction l generalizing cur with
  | nil => simp [linesFrom]
  | cons c l ih =>
    have hc : c ≠ '\n' := fun h => hl (h ▸ mem_cons_self)
    rw [linesFrom, if_neg hc, ih fun h => hl (mem_cons_of_mem _ h)]
    simp

/-- A line without a terminator is the last one. -/
theorem lines_last (hl : '\n' ∉ l) (hne : l ≠ []) : lines l = [l] := by
  rw [lines, linesFrom_last hl]
  simp [hne]

theorem stripCr_of_not_mem (hl : '\r' ∉ l) : stripCr l = l := by
  rw [stripCr, if_neg fun h => hl (mem_of_getLast? h)]

/-! ### Separators -/

/-- Split at the first `sep`. -/
def splitOnce (sep : Char) : Text → Option (Text × Text)
  | [] => none
  | c :: t => if c = sep then some ([], t) else (splitOnce sep t).map fun p => (c :: p.1, p.2)

variable {sep : Char}

theorem splitOnce_append {a : Text} (ha : sep ∉ a) (b : Text) :
    splitOnce sep (a ++ sep :: b) = some (a, b) := by
  induction a with
  | nil => simp [splitOnce]
  | cons c a ih =>
    have hc : c ≠ sep := fun h => ha (h ▸ mem_cons_self)
    rw [cons_append, splitOnce, if_neg hc, ih fun h => ha (mem_cons_of_mem _ h)]
    rfl

/-- Parts, each with `sep` in front. -/
def tagged (sep : Char) (parts : List Text) : Text := parts.flatMap (sep :: ·)

@[simp]
theorem tagged_nil (sep : Char) : tagged sep [] = [] := rfl

@[simp]
theorem tagged_cons (sep : Char) (part : Text) (parts : List Text) :
    tagged sep (part :: parts) = sep :: (part ++ tagged sep parts) := rfl

theorem tagged_append (sep : Char) (parts parts' : List Text) :
    tagged sep (parts ++ parts') = tagged sep parts ++ tagged sep parts' := flatMap_append

variable {parts : List Text}

theorem tagged_eq_nil : tagged sep parts = [] ↔ parts = [] := by
  cases parts <;> simp

theorem mem_tagged {c : Char} (hc : c ≠ sep) : c ∈ tagged sep parts ↔ ∃ part ∈ parts, c ∈ part := by
  simp [tagged, hc]

variable {parts' : List Text}

/-- Where the second part begins with `sep` or is empty, the first is what comes before `sep`. -/
theorem append_tagged_inj {a b : Text} (ha : sep ∉ a) (hb : sep ∉ b)
    (h : a ++ tagged sep parts = b ++ tagged sep parts') :
    a = b ∧ tagged sep parts = tagged sep parts' := by
  have htake : ∀ t parts, sep ∉ t → (t ++ tagged sep parts).takeWhile (fun c => c ≠ sep) = t := by
    intro t parts ht
    rw [takeWhile_append_of_pos fun c hc => decide_eq_true (ne_of_mem_of_not_mem hc ht)]
    cases parts <;> simp
  obtain rfl : a = b := by rw [← htake a parts ha, h, htake b _ hb]
  exact ⟨rfl, append_cancel_left h⟩

/-- A single part without `sep` can be read in one way only. -/
theorem tagged_eq_singleton {part : Text} (hpart : sep ∉ part) :
    tagged sep parts = tagged sep [part] ↔ parts = [part] := by
  constructor
  · intro h
    cases parts with
    | nil => cases h
    | cons p ps =>
      have heq : p ++ tagged sep ps = part := by simpa using h
      have hps : ps = [] := by
        cases ps with
        | nil => rfl
        | cons q qs => exact absurd (heq ▸ by simp) hpart
      rw [hps, tagged_nil, append_nil] at heq
      rw [hps, heq]
  · exact fun h => h ▸ rfl

/-- Several parts read as one. -/
theorem tagged_merge (sep : Char) (part : Text) (parts : List Text) :
    tagged sep [part ++ tagged sep parts] = tagged sep (part :: parts) := by
  simp

/-! ### Fields -/

/-- Where the lines on the right have no separator, what goes beyond the first of them on the left
are whole lines. -/
theorem append_tagged_split {v w : Text}
    (hparts' : ∀ part ∈ parts', sep ∉ part) (hw : sep ∉ w)
    (h : v ++ tagged sep parts = w ++ tagged sep parts') :
    ∃ taken rest, parts' = taken ++ rest ∧ v = w ++ tagged sep taken ∧
      tagged sep parts = tagged sep rest := by
  induction parts' generalizing v w with
  | nil =>
    rw [tagged_nil, append_nil] at h
    have hparts : parts = [] := by
      cases parts with
      | nil => rfl
      | cons part parts => exact absurd (by simp [← h]) hw
    rw [hparts] at h ⊢
    simpa using h
  | cons p parts' ih =>
    rcases append_eq_append_iff.mp h with ⟨a, hva, ha⟩ | ⟨a, hva, ha⟩
    · -- the value on the right is the longer one, so it is no longer
      have hnil : a = [] := by
        cases a with
        | nil => rfl
        | cons c a =>
          cases parts with
          | nil => cases ha
          | cons part parts =>
            have hc : sep = c := (cons.inj ha).1
            exact absurd (by simp [hva, hc]) hw
      rw [hnil] at hva
      rw [hnil] at ha
      exact ⟨[], p :: parts', rfl, by simp [hva], ha⟩
    · cases a with
      | nil =>
        exact ⟨[], p :: parts', rfl, by simp [hva], ha.symm⟩
      | cons c a =>
        obtain ⟨hc, hrest⟩ := cons.inj ha
        obtain ⟨taken, rest, hsplit, hva', htagged⟩ :=
          ih (fun part hpart => hparts' part (mem_cons_of_mem _ hpart))
            (hparts' p mem_cons_self) hrest.symm
        refine ⟨p :: taken, rest, by rw [hsplit]; rfl, ?_, htagged⟩
        rw [hva, hva', tagged_cons, hc]

/-- A key and a value. -/
def field (f : Text × Text) : Text := f.1 ++ '=' :: f.2

theorem splitOnce_field {f : Text × Text} (hf : '=' ∉ f.1) (rest : Text) :
    splitOnce '=' (field f ++ rest) = some (f.1, f.2 ++ rest) := by
  rw [field, append_assoc, cons_append, splitOnce_append hf]

/-- The first keys of equal texts are equal. -/
theorem key_eq_of_tagged {f g : Text × Text} (hf : '=' ∉ f.1) (hg : '=' ∉ g.1)
    (h : tagged '\n' (field f :: parts) = tagged '\n' (field g :: parts')) : f.1 = g.1 := by
  rw [tagged_cons, tagged_cons] at h
  have hsplit := congrArg (splitOnce '=') (cons.inj h).2
  rw [splitOnce_field hf, splitOnce_field hg] at hsplit
  exact (mk.inj (Option.some.inj hsplit)).1

/-- **Fields are told apart by their keys.** Let fields with the same keys come first in both texts,
with lines on the right that have no newline and keys that differ. If the last of those values on the
left has no newline, or nothing comes after it on the right, the fields are the same. -/
theorem tagged_field_inj {fs fs' rest rest' : List (Text × Text)}
    (hkeys : fs.map fst = fs'.map fst)
    (heq : ∀ f ∈ fs' ++ rest', '=' ∉ f.1) (hnl : ∀ f ∈ fs' ++ rest', '\n' ∉ field f)
    (hnodup : ((fs' ++ rest').map fst).Nodup)
    (hlast : rest' ≠ [] → ∀ f ∈ fs.getLast?, '\n' ∉ f.2)
    (h : tagged '\n' ((fs ++ rest).map field) = tagged '\n' ((fs' ++ rest').map field)) :
    fs = fs' ∧ tagged '\n' (rest.map field) = tagged '\n' (rest'.map field) := by
  induction fs generalizing fs' with
  | nil =>
    have hnil : fs' = [] := by simpa using hkeys.symm
    subst hnil
    exact ⟨rfl, h⟩
  | cons f fs ih =>
    obtain ⟨k, v⟩ := f
    cases fs' with
    | nil => cases hkeys
    | cons f' fs' =>
      obtain ⟨k', v'⟩ := f'
      obtain ⟨hk, htail⟩ := cons.inj hkeys
      subst hk
      have hline := hnl (k, v') mem_cons_self
      have hv' : '\n' ∉ v' := fun hc => hline (by simp [field, hc])
      -- past the key, what the value on the left takes of the lines on the right
      have htext : v ++ tagged '\n' ((fs ++ rest).map field) =
          v' ++ tagged '\n' ((fs' ++ rest').map field) := by
        simpa [field] using h
      have hclean : ∀ part ∈ (fs' ++ rest').map field, '\n' ∉ part := by
        intro part hpart
        obtain ⟨g, hg, rfl⟩ := mem_map.mp hpart
        exact hnl g (mem_cons_of_mem _ hg)
      obtain ⟨taken, left, hsplit, hv, htagged⟩ := append_tagged_split hclean hv' htext
      have htaken : taken = [] := by
        cases taken with
        | nil => rfl
        | cons t taken =>
          have hvnl : '\n' ∈ v := by simp [hv]
          cases fs with
          | nil =>
            have hnil : fs' = [] := by simpa using htail.symm
            by_cases hrest : rest' = []
            · rw [hnil, hrest] at hsplit
              cases hsplit
            · exact absurd hvnl (hlast hrest (k, v) (by simp))
          | cons g fs =>
            cases fs' with
            | nil => cases htail
            | cons g' fs' =>
              -- the next key would come a second time
              have hkey : g.1 = g'.1 := (cons.inj htail).1
              have hleft : (fs' ++ rest').map field = taken ++ left := (cons.inj hsplit).2
              cases left with
              | nil => simp at htagged
              | cons l left =>
                have hl : l ∈ (fs' ++ rest').map field := by simp [hleft]
                obtain ⟨g'', hg'', rfl⟩ := mem_map.mp hl
                have hg : '=' ∉ g.1 := hkey ▸ heq g' (by simp)
                have hsame : g.1 = g''.1 := key_eq_of_tagged hg
                  (heq g'' (mem_cons_of_mem _ (mem_cons_of_mem _ hg''))) htagged
                have hdup := (nodup_cons.mp (nodup_cons.mp hnodup).2).1
                refine absurd ?_ hdup
                rw [← hkey, hsame]
                exact mem_map_of_mem hg''
      subst htaken
      rw [tagged_nil, append_nil] at hv
      rw [nil_append] at hsplit
      have hlast' : rest' ≠ [] → ∀ f ∈ fs.getLast?, '\n' ∉ f.2 := by
        intro hne g hg
        refine hlast hne g ?_
        cases fs with
        | nil => cases hg
        | cons a fs => simpa using hg
      obtain ⟨hfs, hrest⟩ := ih htail (fun g hg => heq g (mem_cons_of_mem _ hg))
        (fun g hg => hnl g (mem_cons_of_mem _ hg)) (nodup_cons.mp hnodup).2 hlast'
        (by rw [htagged, hsplit])
      exact ⟨by rw [hv, hfs], hrest⟩

end Text
