/-
  Tables: values under names, kept in the order of the names.

  A name has at most one value.  Names are ordered by code points, which is also the order of their
  bytes.  Main statements: `get?_set` and `get?_erase`, what each change does to each look-up.
-/

namespace Emplace

abbrev Table (α : Type) := List (String × α)

namespace Table

variable {α : Type}

/-- The value under a name. -/
def get? (name : String) : Table α → Option α
  | [] => none
  | (n, v) :: rest => if n = name then some v else get? name rest

/-- The table without the name. -/
def erase (name : String) (t : Table α) : Table α := t.filter fun entry => entry.1 ≠ name

/-- Adds a name that the table does not have, in its place. -/
def insert (name : String) (value : α) : Table α → Table α
  | [] => [(name, value)]
  | (n, v) :: rest =>
      if name < n then (name, value) :: (n, v) :: rest else (n, v) :: insert name value rest

/-- The table with the value under the name, in place of the one it had. -/
def set (name : String) (value : α) (t : Table α) : Table α := insert name value (t.erase name)

/-! ## Looking up after a change -/

theorem get?_erase (name other : String) (t : Table α) :
    get? other (t.erase name) = if other = name then none else get? other t := by
  induction t with
  | nil => simp [erase, get?]
  | cons entry rest ih =>
    obtain ⟨n, v⟩ := entry
    unfold erase at ih ⊢
    by_cases hn : n = name
    · subst hn
      by_cases ho : other = n
      · subst ho
        simpa [get?] using ih
      · simpa [get?, ho, Ne.symm ho] using ih
    · by_cases ho : n = other
      · subst ho
        simp [get?, hn]
      · simpa [get?, hn, ho] using ih

theorem get?_insert {name other : String} {value : α} {t : Table α} (h : get? name t = none) :
    get? other (t.insert name value) = if other = name then some value else get? other t := by
  induction t with
  | nil =>
    by_cases ho : other = name
    · simp [insert, get?, ho]
    · simp [insert, get?, ho, Ne.symm ho]
  | cons entry rest ih =>
    obtain ⟨n, v⟩ := entry
    have hn : n ≠ name := by
      rintro rfl
      simp [get?] at h
    have hrest : get? name rest = none := by simpa [get?, hn] using h
    unfold insert
    split
    · by_cases ho : other = name
      · simp [get?, ho]
      · simp [get?, ho, Ne.symm ho]
    · by_cases ho : n = other
      · subst ho
        simp [get?, hn]
      · simp [get?, ho, ih hrest]

theorem get?_set (name other : String) (value : α) (t : Table α) :
    get? other (t.set name value) = if other = name then some value else get? other t := by
  rw [set, get?_insert (by simp [get?_erase]), get?_erase]
  split <;> rfl

example : (set "a" 1 (set "b" 2 (set "a" 0 []))) = [("a", 1), ("b", 2)] := by decide

end Table

end Emplace
