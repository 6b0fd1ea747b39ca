import Mathlib.Data.List.Nodup
import Emplace.Table

/-
  Tables as collections.

  A table that is kept in the order of its names is looked at here as a collection of values, in any
  order (`values`).  As long as no name occurs twice (`Distinct`), a table is the value under a name
  and the rest of it (`values_perm`), and to set a value is to put it in the place of the other
  (`values_set`).
-/

namespace Emplace

namespace Table

variable {α : Type} {name : String} {value : α} {t : Table α}

def values (t : Table α) : List α := t.map Prod.snd

/-- No two entries have the same name. -/
def Distinct (t : Table α) : Prop := (t.map Prod.fst).Nodup

theorem insert_perm (name : String) (value : α) (t : Table α) :
    (t.insert name value).Perm ((name, value) :: t) := by
  induction t with
  | nil => exact .refl _
  | cons entry rest ih =>
    obtain ⟨n, v⟩ := entry
    unfold insert
    split
    · exact .refl _
    · exact (ih.cons (n, v)).trans (.swap ..)

/-- The value is put in place of those that the name had. -/
theorem values_set (name : String) (value : α) (t : Table α) :
    (t.set name value).values.Perm (value :: (t.erase name).values) :=
  (insert_perm name value (t.erase name)).map Prod.snd

theorem erase_cons_of_ne {n : String} (hne : n ≠ name) (v : α) (rest : Table α) :
    erase name ((n, v) :: rest) = (n, v) :: erase name rest :=
  List.filter_cons_of_pos (decide_eq_true hne)

theorem erase_cons_self (name : String) (v : α) (rest : Table α) :
    erase name ((name, v) :: rest) = erase name rest :=
  List.filter_cons_of_neg (by simp)

theorem erase_of_get?_eq_none (h : t.get? name = none) : t.erase name = t := by
  induction t with
  | nil => rfl
  | cons entry rest ih =>
    obtain ⟨n, v⟩ := entry
    unfold get? at h
    split at h
    · cases h
    · rename_i hne
      rw [erase_cons_of_ne hne, ih h]

theorem get?_eq_none_of_not_mem (h : name ∉ t.map Prod.fst) : t.get? name = none := by
  induction t with
  | nil => rfl
  | cons entry rest ih =>
    obtain ⟨n, v⟩ := entry
    have hne : n ≠ name := fun heq => h (heq ▸ List.mem_cons_self ..)
    unfold get?
    rw [if_neg hne]
    exact ih fun hmem => h (List.mem_cons_of_mem n hmem)

/-- A table is the value under a name, if there is one, and the rest. -/
theorem values_perm (hdistinct : t.Distinct) (name : String) :
    t.values.Perm ((t.get? name).toList ++ (t.erase name).values) := by
  induction t with
  | nil => exact .refl _
  | cons entry rest ih =>
    obtain ⟨n, v⟩ := entry
    obtain ⟨hnotin, hrest⟩ := List.nodup_cons.mp hdistinct
    by_cases heq : n = name
    · subst heq
      rw [erase_cons_self, erase_of_get?_eq_none (get?_eq_none_of_not_mem hnotin), get?,
        if_pos rfl]
      exact .refl _
    · rw [erase_cons_of_ne heq, get?, if_neg heq]
      exact ((ih hrest).cons v).trans List.perm_middle.symm

theorem mem_values_of_get? (h : t.get? name = some value) : value ∈ t.values := by
  induction t with
  | nil => cases h
  | cons entry rest ih =>
    obtain ⟨n, v⟩ := entry
    unfold get? at h
    split at h
    · obtain rfl := Option.some.inj h
      exact List.mem_cons_self ..
    · exact List.mem_cons_of_mem _ (ih h)

theorem mem_values_of_mem_erase (h : value ∈ (t.erase name).values) : value ∈ t.values :=
  (List.filter_sublist.map Prod.snd).subset h

theorem mem_values_set {new : α} (h : value ∈ (t.set name new).values) :
    value = new ∨ value ∈ t.values := by
  rcases List.mem_cons.mp ((values_set name new t).mem_iff.mp h) with heq | hmem
  · exact .inl heq
  · exact .inr (mem_values_of_mem_erase hmem)

theorem mem_values_set_self (name : String) (value : α) (t : Table α) :
    value ∈ (t.set name value).values :=
  (values_set name value t).mem_iff.mpr (List.mem_cons_self ..)

theorem Distinct.erase (h : t.Distinct) (name : String) : (t.erase name).Distinct :=
  (List.filter_sublist.map Prod.fst).nodup h

theorem Distinct.set (h : t.Distinct) (name : String) (value : α) : (t.set name value).Distinct := by
  have hperm := (insert_perm name value (t.erase name)).map Prod.fst
  refine hperm.nodup_iff.mpr (List.nodup_cons.mpr ⟨?_, h.erase name⟩)
  intro hmem
  obtain ⟨entry, hentry, heq⟩ := List.mem_map.mp hmem
  exact of_decide_eq_true (List.mem_filter.mp hentry).2 heq

end Table

end Emplace
