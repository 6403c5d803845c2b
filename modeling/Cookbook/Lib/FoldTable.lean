import Mathlib.Data.List.Basic

/-!
# Ordered tables with folded keys

A table is a list of entries.  Two keys name the same variable when they have
the same image under `fold` (for instance, their lower-case form), and a
lookup returns the first entry of that name.  This is the interface of an
order-preserving table with case-insensitive keys.
-/

namespace Cookbook.Lib.FoldTable

universe u v w

variable {key : Type u} {image : Type v} {value : Type w}
variable [DecidableEq image] (fold : key → image)

/-- The value of the first entry with the given name. -/
def get (table : List (key × value)) (name : key) : Option value :=
  match table with
  | [] => none
  | entry :: rest =>
    if fold entry.1 = fold name then some entry.2 else get rest name

/-- Remove every entry with the given name. -/
def unset (table : List (key × value)) (name : key) : List (key × value) :=
  table.filter fun entry => fold entry.1 ≠ fold name

/-- Replace the value of the first entry with the given name and drop the
later ones; without such an entry, append one. -/
def set (table : List (key × value)) (name : key) (new : value) :
    List (key × value) :=
  match table with
  | [] => [(name, new)]
  | entry :: rest =>
    if fold entry.1 = fold name then
      (entry.1, new) :: unset fold rest name
    else
      entry :: set rest name new

/-- Change the value of the first entry with the given name in place. -/
def modify (table : List (key × value)) (name : key)
    (change : value → value) : List (key × value) :=
  match table with
  | [] => []
  | entry :: rest =>
    if fold entry.1 = fold name then (entry.1, change entry.2) :: rest
    else entry :: modify rest name change

variable {fold}

@[simp]
theorem get_nil (name : key) : get fold ([] : List (key × value)) name = none := rfl

theorem get_cons
    (entry : key × value) (rest : List (key × value)) (name : key) :
    get fold (entry :: rest) name = if fold entry.1 = fold name then some entry.2
      else get fold rest name := rfl

variable {table : List (key × value)} {name : key} {entry : key × value}

theorem get_congr {other : key} (same : fold name = fold other) :
    get fold table name = get fold table other := by
  induction table with
  | nil => rfl
  | cons entry rest ih =>
    rw [get_cons, get_cons, same, ih]

theorem get_unset (table : List (key × value)) (removed name : key) :
    get fold (unset fold table removed) name = if fold removed = fold name then none
      else get fold table name := by
  induction table with
  | nil => simp [unset]
  | cons entry rest ih =>
    unfold unset at ih ⊢
    by_cases dropped : fold entry.1 = fold removed
    · rw [List.filter_cons_of_neg (by simpa using dropped), ih, get_cons, dropped]
      by_cases sameName : fold removed = fold name
      · simp [sameName]
      · simp [sameName]
    · rw [List.filter_cons_of_pos (by simpa using dropped), get_cons, ih, get_cons]
      by_cases sameName : fold removed = fold name
      · have differs : fold entry.1 ≠ fold name := by
          rwa [← sameName]
        simp [sameName, differs]
      · simp [sameName]

theorem get_set
    (table : List (key × value)) (changed name : key) (new : value) :
    get fold (set fold table changed new) name = if fold changed = fold name then some new
      else get fold table name := by
  induction table with
  | nil => simp [set, get_cons]
  | cons entry rest ih =>
    by_cases found : fold entry.1 = fold changed
    · rw [set, if_pos found, get_cons, get_unset, get_cons]
      by_cases sameName : fold changed = fold name
      · simp [found, sameName]
      · simp [found, sameName]
    · rw [set, if_neg found, get_cons, ih, get_cons]
      by_cases sameName : fold changed = fold name
      · have differs : fold entry.1 ≠ fold name := by
          rwa [← sameName]
        simp [sameName, differs]
      · simp [sameName]

theorem get_set_self (table : List (key × value)) (name : key) (new : value) :
    get fold (set fold table name new) name = some new := by
  rw [get_set, if_pos rfl]

theorem get_set_of_ne
    {changed : key} {new : value} (differs : fold changed ≠ fold name) :
    get fold (set fold table changed new) name = get fold table name := by
  rw [get_set, if_neg differs]

theorem get_modify_self
    (table : List (key × value)) (name : key) (change : value → value) :
    get fold (modify fold table name change) name = (get fold table name).map change := by
  induction table with
  | nil => rfl
  | cons entry rest ih =>
    rw [modify, get_cons]
    split
    · rename_i found
      rw [get_cons, if_pos found]
      rfl
    · rename_i other
      rw [get_cons, if_neg other, ih]

theorem get_unset_of_ne {removed : key} (differs : fold removed ≠ fold name) :
    get fold (unset fold table removed) name = get fold table name := by
  rw [get_unset, if_neg differs]

theorem mem_of_mem_unset
    (member : entry ∈ unset fold table name) : entry ∈ table :=
  List.mem_of_mem_filter member

theorem mem_of_mem_set
    {new : value} (member : entry ∈ set fold table name new) :
    entry ∈ table ∨ entry.2 = new ∧ fold entry.1 = fold name := by
  induction table with
  | nil =>
    rw [set, List.mem_singleton] at member
    exact Or.inr ⟨by rw [member], by rw [member]⟩
  | cons first rest ih =>
    rw [set] at member
    split at member
    · rename_i found
      rcases List.mem_cons.mp member with head | tail
      · exact Or.inr ⟨by rw [head], by rw [head]; exact found⟩
      · exact Or.inl (List.mem_cons_of_mem _ (mem_of_mem_unset tail))
    · rcases List.mem_cons.mp member with head | tail
      · exact Or.inl (head ▸ List.mem_cons_self)
      · rcases ih tail with old | new
        · exact Or.inl (List.mem_cons_of_mem _ old)
        · exact Or.inr new

theorem mem_set_of_ne (new : value) (member : entry ∈ table)
    (differs : fold entry.1 ≠ fold name) : entry ∈ set fold table name new := by
  induction table with
  | nil => cases member
  | cons first rest ih =>
    rw [set]
    split
    · rename_i found
      rcases List.mem_cons.mp member with rfl | tail
      · exact absurd found differs
      · apply List.mem_cons_of_mem
        exact List.mem_filter.mpr ⟨tail, by simpa using differs⟩
    · rcases List.mem_cons.mp member with rfl | tail
      · exact List.mem_cons_self
      · exact List.mem_cons_of_mem _ (ih tail)

theorem exists_mem_of_get
    {found : value} (lookup : get fold table name = some found) :
    ∃ entry ∈ table, entry.2 = found ∧ fold entry.1 = fold name := by
  induction table with
  | nil => simp at lookup
  | cons entry rest ih =>
    rw [get_cons] at lookup
    split at lookup
    · rename_i same
      exact ⟨entry, List.mem_cons_self, Option.some.inj lookup, same⟩
    · obtain ⟨other, member, rest⟩ := ih lookup
      exact ⟨other, List.mem_cons_of_mem _ member, rest⟩

end Cookbook.Lib.FoldTable
