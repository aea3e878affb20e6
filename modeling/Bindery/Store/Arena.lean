/-!
# Arenas

An `Arena` holds values under ids that are never given out twice: taking a value out moves its cell
on to the next generation, so that an id from before no longer finds anything, even when the cell
is in use again.

* `Arena.insert`, `Arena.remove`, `Arena.get?`, `Arena.modify`: the operations.
* `Arena.toList`: the ids in use with their values, by cell.
* `Arena.get?_insert_self`, `Arena.get?_remove_self`: what an id finds after it was given out, and
  after its value was taken out.
-/

namespace Bindery

/-- The id of a value: its cell, and the generation of the cell when the value was put there. -/
structure SymbolId where
  index : Nat
  generation : UInt32
  deriving DecidableEq, Repr, Inhabited

/-- Ids are compared by cell, then by generation. -/
def SymbolId.order (a b : SymbolId) : Ordering :=
  (compare a.index b.index).then (compare a.generation.toNat b.generation.toNat)

/-- A place for a value. -/
structure Cell (α : Type) where
  generation : UInt32
  value : Option α
  deriving Repr, Inhabited

/-- Values under ids. -/
structure Arena (α : Type) where
  cells : Array (Cell α) := #[]
  /-- The empty cells, the one vacated last in front. -/
  free : List Nat := []
  /-- The number of values. -/
  count : Nat := 0
  deriving Repr

namespace Arena

variable {α : Type}

instance : Inhabited (Arena α) := ⟨{}⟩

/-- The value of an id, if the id is still in use. -/
def get? (a : Arena α) (id : SymbolId) : Option α :=
  a.cells[id.index]?.bind fun c => if c.generation = id.generation then c.value else none

/-- Whether an id is still in use. -/
def contains (a : Arena α) (id : SymbolId) : Bool := (a.get? id).isSome

/-- Open a new cell for a value. -/
def push (a : Arena α) (free : List Nat) (value : α) : Arena α × SymbolId :=
  (⟨a.cells.push ⟨0, some value⟩, free, a.count + 1⟩, ⟨a.cells.size, 0⟩)

/-- Put a value into the cell vacated last, or into a new one. -/
def insert (a : Arena α) (value : α) : Arena α × SymbolId :=
  match a.free with
  | [] => a.push [] value
  | i :: free =>
    match a.cells[i]? with
    | some c =>
      (⟨a.cells.setIfInBounds i { c with value := some value }, free, a.count + 1⟩,
        ⟨i, c.generation⟩)
    | none => a.push free value

/-- Take the value of an id out. The id finds nothing from then on. -/
def remove (a : Arena α) (id : SymbolId) : Arena α × Option α :=
  match a.get? id with
  | none => (a, none)
  | some value =>
    (⟨a.cells.setIfInBounds id.index ⟨id.generation + 1, none⟩, id.index :: a.free, a.count - 1⟩,
      some value)

/-- Change the value of an id that is still in use. -/
def modify (a : Arena α) (id : SymbolId) (f : α → α) : Arena α :=
  { a with
    cells := a.cells.modify id.index fun c =>
      if c.generation = id.generation then { c with value := c.value.map f } else c }

/-- The ids in use with their values, in the order of the cells. -/
def toList (a : Arena α) : List (SymbolId × α) :=
  a.cells.toList.zipIdx.filterMap fun (c, i) => c.value.map fun v => (⟨i, c.generation⟩, v)

/-! ## Laws -/

theorem get?_insert_self (a : Arena α) (value : α) :
    (a.insert value).1.get? (a.insert value).2 = some value := by
  unfold insert
  split
  · simp [push, get?]
  · split
    · rename_i c hc
      obtain ⟨hlt, _⟩ := Array.getElem?_eq_some_iff.1 hc
      simp [get?, hlt]
    · simp [push, get?]

/-- An id whose value has been taken out finds nothing. -/
theorem get?_remove_self (a : Arena α) (id : SymbolId) : (a.remove id).1.get? id = none := by
  unfold remove
  cases h : a.get? id with
  | none => exact h
  | some v =>
    unfold get?
    by_cases hlt : id.index < a.cells.size <;> simp [hlt]

theorem get?_modify_self (a : Arena α) (id : SymbolId) (f : α → α) :
    (a.modify id f).get? id = (a.get? id).map f := by
  simp only [modify, get?, Array.getElem?_modify, if_true]
  cases a.cells[id.index]? with
  | none => rfl
  | some c => by_cases hg : c.generation = id.generation <;> simp [hg]

end Arena

end Bindery
