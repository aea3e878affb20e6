/-!
# Tables

A `Table` maps names to values and keeps its entries in the order in which their names arrived.
A name stands in a table at most once.

* `Table.get?`, `Table.insert`, `Table.erase`, `Table.modify`: the operations.
* **`Table.get?_insert`**, **`Table.get?_erase`**: what a look-up finds after each.
* `Table.keys_insert`: an old name keeps its place, a new one goes to the end.
-/

namespace Bindery

/-! ## Entries of a list of pairs -/

namespace Entries

variable {α : Type}

/-- The value of the first pair named `key`. -/
def find? (key : String) : List (String × α) → Option α
  | [] => none
  | e :: es => if e.1 = key then some e.2 else find? key es

/-- Replace the value of the first pair named `key`, or add a pair at the end. -/
def put (key : String) (value : α) : List (String × α) → List (String × α)
  | [] => [(key, value)]
  | e :: es => if e.1 = key then (key, value) :: es else e :: put key value es

theorem find?_put (key k : String) (value : α) (es : List (String × α)) :
    find? k (put key value es) = if k = key then some value else find? k es := by
  induction es with
  | nil => simp [put, find?, eq_comm]
  | cons e es ih =>
    by_cases he : e.1 = key
    · by_cases hk : k = key
      · simp [put, find?, he, hk]
      · simp [put, find?, he, hk, Ne.symm (a := k) (b := key) hk]
    · by_cases hek : e.1 = k
      · have hk : k ≠ key := fun h => he (hek.trans h)
        simp [put, find?, hek, hk]
      · simp [put, find?, he, hek, ih]

theorem map_fst_put (key : String) (value : α) (es : List (String × α)) :
    (put key value es).map Prod.fst =
      if key ∈ es.map Prod.fst then es.map Prod.fst else es.map Prod.fst ++ [key] := by
  induction es with
  | nil => simp [put]
  | cons e es ih =>
    by_cases he : e.1 = key
    · simp [put, he]
    · have hne : key ≠ e.1 := fun h => he h.symm
      simp only [put, if_neg he, List.map_cons, ih, List.mem_cons, hne, false_or]
      split <;> simp

theorem find?_filter (key k : String) (es : List (String × α)) :
    find? k (es.filter (·.1 ≠ key)) = if k = key then none else find? k es := by
  induction es with
  | nil => simp [find?]
  | cons e es ih =>
    by_cases he : e.1 = key
    · rw [List.filter_cons_of_neg (by simp [he]), ih]
      by_cases hk : k = key
      · simp [hk]
      · have hek : e.1 ≠ k := fun h => hk (h.symm.trans he)
        simp [find?, hk, hek]
    · rw [List.filter_cons_of_pos (by simp [he])]
      by_cases hek : e.1 = k
      · have hk : k ≠ key := fun h => he (hek.trans h)
        simp [find?, hek, hk]
      · simp only [find?, if_neg hek, ih]

theorem find?_eq_none_iff {k : String} {es : List (String × α)} :
    find? k es = none ↔ k ∉ es.map Prod.fst := by
  induction es with
  | nil => simp [find?]
  | cons e es ih =>
    by_cases h : e.1 = k
    · simp [find?, h]
    · simp [find?, h, ih, Ne.symm (a := e.1) (b := k) h]

theorem find?_map (f : String → α → α) (k : String) (es : List (String × α)) :
    find? k (es.map fun e => (e.1, f e.1 e.2)) = (find? k es).map (f k) := by
  induction es with
  | nil => rfl
  | cons e es ih =>
    by_cases h : e.1 = k
    · simp [find?, h]
    · simp [find?, h, ih]

end Entries

/-- Values by name, in order of arrival of the names. -/
structure Table (α : Type) where
  entries : List (String × α)
  nodup : (entries.map Prod.fst).Nodup

namespace Table

variable {α : Type}

/-- The table without entries. -/
def empty : Table α := ⟨[], List.nodup_nil⟩

instance : Inhabited (Table α) := ⟨empty⟩

instance : EmptyCollection (Table α) := ⟨empty⟩

/-- The names in order of arrival. -/
def keys (t : Table α) : List String := t.entries.map Prod.fst

/-- The values in order of arrival of their names. -/
def values (t : Table α) : List α := t.entries.map Prod.snd

/-- The number of names. -/
def size (t : Table α) : Nat := t.entries.length

/-- The value of `key`. -/
def get? (t : Table α) (key : String) : Option α := Entries.find? key t.entries

/-- Whether `key` has a value. -/
def contains (t : Table α) (key : String) : Bool := (t.get? key).isSome

/-- Give `key` a value; a name that has one keeps its place. -/
def insert (t : Table α) (key : String) (value : α) : Table α :=
  ⟨Entries.put key value t.entries, by
    rw [Entries.map_fst_put]
    split
    · exact t.nodup
    · rename_i h
      refine List.nodup_append.2
        ⟨t.nodup, List.nodup_cons.2 ⟨List.not_mem_nil, List.nodup_nil⟩, ?_⟩
      rintro a ha b hb rfl
      exact h (List.mem_singleton.1 hb ▸ ha)⟩

/-- Take `key` out; the other names keep their order. -/
def erase (t : Table α) (key : String) : Table α :=
  ⟨t.entries.filter (·.1 ≠ key), by
    have := t.nodup
    exact List.Sublist.nodup (List.filter_sublist.map Prod.fst) this⟩

/-- Change every value. -/
def mapValues (t : Table α) (f : String → α → α) : Table α :=
  ⟨t.entries.map fun e => (e.1, f e.1 e.2), by
    have : (t.entries.map fun e => (e.1, f e.1 e.2)).map Prod.fst = t.entries.map Prod.fst := by
      simp
    rw [this]
    exact t.nodup⟩

/-- Change the value of `key`, if it has one. -/
def modify (t : Table α) (key : String) (f : α → α) : Table α :=
  t.mapValues fun k v => if k = key then f v else v

/-! ## Look-ups -/

@[simp] theorem get?_empty (k : String) : (empty : Table α).get? k = none := rfl

theorem get?_insert (t : Table α) (key k : String) (value : α) :
    (t.insert key value).get? k = if k = key then some value else t.get? k :=
  Entries.find?_put key k value t.entries

theorem get?_erase (t : Table α) (key k : String) :
    (t.erase key).get? k = if k = key then none else t.get? k :=
  Entries.find?_filter key k t.entries

theorem get?_mapValues (t : Table α) (f : String → α → α) (k : String) :
    (t.mapValues f).get? k = (t.get? k).map (f k) :=
  Entries.find?_map f k t.entries

theorem get?_modify (t : Table α) (key k : String) (f : α → α) :
    (t.modify key f).get? k = if k = key then (t.get? k).map f else t.get? k := by
  unfold modify
  rw [get?_mapValues]
  by_cases h : k = key <;> simp [h]

theorem get?_eq_none_iff {t : Table α} {k : String} : t.get? k = none ↔ k ∉ t.keys :=
  Entries.find?_eq_none_iff

theorem contains_iff {t : Table α} {k : String} : t.contains k = true ↔ k ∈ t.keys := by
  unfold contains
  cases h : t.get? k with
  | none => simpa using get?_eq_none_iff.1 h
  | some v =>
    simp only [Option.isSome_some, true_iff]
    exact Classical.byContradiction fun hn => by simp [get?_eq_none_iff.2 hn] at h

theorem keys_insert (t : Table α) (key : String) (value : α) :
    (t.insert key value).keys = if key ∈ t.keys then t.keys else t.keys ++ [key] :=
  Entries.map_fst_put key value t.entries

@[simp] theorem keys_mapValues (t : Table α) (f : String → α → α) :
    (t.mapValues f).keys = t.keys := by
  simp [mapValues, keys]

@[simp] theorem keys_modify (t : Table α) (key : String) (f : α → α) :
    (t.modify key f).keys = t.keys := by
  simp [modify]

end Table

end Bindery
