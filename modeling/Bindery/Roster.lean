/-!
# Rosters

A `Roster` is a list without repeats that keeps its members in the order of their arrival.

* `Roster.insert`: a newcomer goes to the end, a member stays where it is.
* `Roster.ofList`: the distinct members of a list by first occurrence.
* **`Roster.mem_insert`**, **`Roster.mem_ofList`**: the members after either.
-/

namespace Bindery

/-- Distinct values in order of arrival. -/
structure Roster (α : Type) where
  toList : List α
  nodup : toList.Nodup

namespace Roster

variable {α : Type}

/-- The roster without members. -/
def empty : Roster α := ⟨[], List.nodup_nil⟩

instance : Inhabited (Roster α) := ⟨empty⟩

instance : EmptyCollection (Roster α) := ⟨empty⟩

instance : Membership α (Roster α) := ⟨fun r x => x ∈ r.toList⟩

instance [DecidableEq α] (x : α) (r : Roster α) : Decidable (x ∈ r) :=
  inferInstanceAs (Decidable (x ∈ r.toList))

theorem mem_def {x : α} {r : Roster α} : x ∈ r ↔ x ∈ r.toList := Iff.rfl

/-- The number of members. -/
def size (r : Roster α) : Nat := r.toList.length

/-- No member at all. -/
def isEmpty (r : Roster α) : Bool := r.toList.isEmpty

@[simp] theorem not_mem_empty (x : α) : x ∉ (empty : Roster α) := List.not_mem_nil

section Insert

variable [DecidableEq α]

/-- Add `x` at the end, unless it is a member already. -/
def insert (r : Roster α) (x : α) : Roster α :=
  if h : x ∈ r.toList then r
  else ⟨r.toList ++ [x], by
    refine List.nodup_append.2 ⟨r.nodup, List.nodup_cons.2 ⟨List.not_mem_nil, List.nodup_nil⟩, ?_⟩
    rintro a ha b hb rfl
    exact h (List.mem_singleton.1 hb ▸ ha)⟩

/-- Add each value of a list in turn. -/
def insertAll (r : Roster α) (xs : List α) : Roster α := xs.foldl insert r

/-- The distinct values of a list, by first occurrence. -/
def ofList (xs : List α) : Roster α := empty.insertAll xs

/-- The roster without `x`; the others keep their order. -/
def erase (r : Roster α) (x : α) : Roster α :=
  ⟨r.toList.filter (· ≠ x), r.nodup.filter _⟩

/-! ## Members -/

theorem toList_insert (r : Roster α) (x : α) :
    (r.insert x).toList = if x ∈ r then r.toList else r.toList ++ [x] := by
  unfold insert
  by_cases h : x ∈ r.toList
  · simp [h, mem_def]
  · simp [h, mem_def]

@[simp] theorem mem_insert {r : Roster α} {x y : α} : y ∈ r.insert x ↔ y ∈ r ∨ y = x := by
  rw [mem_def, toList_insert]
  by_cases h : x ∈ r
  · rw [if_pos h]
    exact ⟨Or.inl, fun hy => hy.elim id fun e => e ▸ h⟩
  · rw [if_neg h]
    simp [mem_def]

@[simp] theorem mem_insertAll {r : Roster α} {xs : List α} {y : α} :
    y ∈ r.insertAll xs ↔ y ∈ r ∨ y ∈ xs := by
  unfold insertAll
  induction xs generalizing r with
  | nil => simp
  | cons x xs ih => simp [ih, or_assoc]

@[simp] theorem mem_ofList {xs : List α} {y : α} : y ∈ ofList xs ↔ y ∈ xs := by
  simp [ofList]

theorem ofList_append_singleton (xs : List α) (x : α) : ofList (xs ++ [x]) = (ofList xs).insert x := by
  rw [ofList, ofList, insertAll, insertAll, List.foldl_append]
  rfl

@[simp] theorem mem_erase {r : Roster α} {x y : α} : y ∈ r.erase x ↔ y ∈ r ∧ y ≠ x := by
  simp [mem_def, erase]

end Insert

end Roster

end Bindery
