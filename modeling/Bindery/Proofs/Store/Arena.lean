import Mathlib.Data.List.Nodup
import Bindery.Store.Arena

/-!
# What the operations of an arena do to its ids

In a sound arena the cells on the free list are empty, so that a newcomer never takes the place of
another value.

* `Arena.Sound`: the invariant; every operation keeps it.
* **`Arena.get?_insert`**, **`Arena.get?_remove`**, **`Arena.get?_modify`**: what every id finds
  after each operation.
* `Arena.count_insert`, `Arena.count_remove`: how many values there are.
* `Arena.mem_toList`, `Arena.pairwise_index_toList`: the list of the ids in use.
* `Arena.map`: an arena with every value changed, whose ids are the same.
-/

namespace Bindery.Arena

variable {α β : Type}

/-- The cells on the free list are empty, and none stands there twice. -/
structure Sound (a : Arena α) : Prop where
  nodup : a.free.Nodup
  vacant : ∀ i ∈ a.free, ∃ g, a.cells[i]? = some ⟨g, none⟩

theorem sound_empty : ({} : Arena α).Sound :=
  ⟨List.nodup_nil, fun _ h => absurd h List.not_mem_nil⟩

theorem get?_eq_some_iff {a : Arena α} {id : SymbolId} {v : α} :
    a.get? id = some v ↔ a.cells[id.index]? = some ⟨id.generation, some v⟩ := by
  unfold get?
  cases a.cells[id.index]? with
  | none => simp
  | some c =>
    obtain ⟨g, w⟩ := c
    by_cases hg : g = id.generation <;> simp [hg]

/-! ## Insertion -/

/-- The cell of a newcomer held nothing before. -/
theorem get?_insert_fresh {a : Arena α} (h : a.Sound) (v : α) : a.get? (a.insert v).2 = none := by
  unfold insert
  split
  · simp [push, get?]
  · rename_i i free hf
    obtain ⟨g, hg⟩ := h.vacant i (by rw [hf]; exact List.mem_cons_self)
    simp [hg, get?]

theorem get?_insert {a : Arena α} (h : a.Sound) (v : α) (id : SymbolId) :
    (a.insert v).1.get? id = if id = (a.insert v).2 then some v else a.get? id := by
  by_cases he : id = (a.insert v).2
  · rw [if_pos he, he, get?_insert_self]
  rw [if_neg he]
  obtain ⟨j, g⟩ := id
  unfold insert at he ⊢
  split at he
  · simp only [push, SymbolId.mk.injEq, not_and] at he
    simp only [push, get?, Array.getElem?_push]
    by_cases hj : j = a.cells.size
    · simp [hj, Ne.symm (he hj)]
    · simp [hj]
  · rename_i i free hf
    obtain ⟨g', hg'⟩ := h.vacant i (by rw [hf]; exact List.mem_cons_self)
    have hlt : i < a.cells.size := (Array.getElem?_eq_some_iff.mp hg').1
    simp only [hg', SymbolId.mk.injEq, not_and] at he ⊢
    simp only [get?, Array.getElem?_setIfInBounds]
    by_cases hj : i = j
    · subst hj
      rw [hg']
      simp [hlt, Ne.symm (he rfl)]
    · simp [hj]

theorem Sound.insert {a : Arena α} (h : a.Sound) (v : α) : (a.insert v).1.Sound := by
  unfold Arena.insert
  split
  · exact ⟨List.nodup_nil, fun _ hi => absurd hi List.not_mem_nil⟩
  · rename_i i free hf
    have hn := h.nodup
    rw [hf, List.nodup_cons] at hn
    obtain ⟨g, hg⟩ := h.vacant i (by rw [hf]; exact List.mem_cons_self)
    simp only [hg]
    refine ⟨hn.2, fun j hj => ?_⟩
    have hij : i ≠ j := fun e => hn.1 (e ▸ hj)
    obtain ⟨g', hg'⟩ := h.vacant j (by rw [hf]; exact List.mem_cons_of_mem _ hj)
    exact ⟨g', by rw [Array.getElem?_setIfInBounds_ne hij, hg']⟩

/-! ## Removal -/

theorem snd_remove (a : Arena α) (id : SymbolId) : (a.remove id).2 = a.get? id := by
  unfold remove
  cases h : a.get? id <;> simp

theorem get?_remove (a : Arena α) (id k : SymbolId) :
    (a.remove id).1.get? k = if k = id then none else a.get? k := by
  by_cases hk : k = id
  · rw [if_pos hk, hk, get?_remove_self]
  rw [if_neg hk]
  unfold remove
  cases h : a.get? id with
  | none => rfl
  | some v =>
    have hc := get?_eq_some_iff.mp h
    have hlt : id.index < a.cells.size := (Array.getElem?_eq_some_iff.mp hc).1
    simp only [get?, Array.getElem?_setIfInBounds]
    by_cases hi : id.index = k.index
    · have hg : id.generation ≠ k.generation := fun e => hk (by
        cases k; cases id; simp_all)
      rw [← hi, hc]
      simp [hlt, hg]
    · rw [if_neg hi]

theorem Sound.remove {a : Arena α} (h : a.Sound) (id : SymbolId) : (a.remove id).1.Sound := by
  unfold Arena.remove
  cases hv : a.get? id with
  | none => exact h
  | some v =>
    have hc := get?_eq_some_iff.mp hv
    have hlt : id.index < a.cells.size := (Array.getElem?_eq_some_iff.mp hc).1
    have hout : id.index ∉ a.free := fun hm => by
      obtain ⟨g, hg⟩ := h.vacant _ hm
      rw [hc] at hg
      cases hg
    refine ⟨List.nodup_cons.mpr ⟨hout, h.nodup⟩, fun i hi => ?_⟩
    simp only [Array.getElem?_setIfInBounds]
    rcases List.mem_cons.mp hi with rfl | hi
    · exact ⟨id.generation + 1, by simp [hlt]⟩
    · obtain ⟨g, hg⟩ := h.vacant i hi
      exact ⟨g, by rw [if_neg (fun e => hout (by rw [e]; exact hi)), hg]⟩

/-! ## Change -/

theorem get?_modify (a : Arena α) (id k : SymbolId) (f : α → α) :
    (a.modify id f).get? k = if k = id then (a.get? k).map f else a.get? k := by
  by_cases hk : k = id
  · rw [if_pos hk, hk, get?_modify_self]
  rw [if_neg hk]
  simp only [modify, get?, Array.getElem?_modify]
  by_cases hi : id.index = k.index
  · have hg : id.generation ≠ k.generation := fun e => hk (by
      cases k; cases id; simp_all)
    cases a.cells[k.index]? with
    | none => simp
    | some c =>
      by_cases hc : c.generation = id.generation
      · simp [hi, hc, hg]
      · simp [hi, hc]
  · simp [hi]

/-- Without a value there is nothing to change. -/
theorem modify_of_none {a : Arena α} {id : SymbolId} (h : a.get? id = none) (f : α → α) :
    a.modify id f = a := by
  obtain ⟨cells, free, count⟩ := a
  simp only [modify, mk.injEq, and_true]
  refine Array.ext_getElem? fun i => ?_
  rw [Array.getElem?_modify]
  split_ifs with hi
  · subst hi
    rw [get?] at h
    rcases hc : cells[id.index]? with _ | ⟨g, v⟩
    · rfl
    · rw [hc, Option.bind_some] at h
      by_cases hg : g = id.generation
      · rw [if_pos hg] at h
        simp_all
      · simp [hg]
  · rfl

theorem Sound.modify {a : Arena α} (h : a.Sound) (id : SymbolId) (f : α → α) :
    (a.modify id f).Sound := by
  refine ⟨h.nodup, fun i hi => ?_⟩
  obtain ⟨g, hg⟩ := h.vacant i hi
  refine ⟨g, ?_⟩
  simp only [Arena.modify, Array.getElem?_modify, hg]
  split_ifs <;> simp

/-! ## The number of values -/

theorem count_insert (a : Arena α) (v : α) : (a.insert v).1.count = a.count + 1 := by
  unfold insert
  split
  · rfl
  · split <;> rfl

theorem count_remove {a : Arena α} {id : SymbolId} (h : (a.get? id).isSome = true) :
    (a.remove id).1.count = a.count - 1 := by
  obtain ⟨v, hv⟩ := Option.isSome_iff_exists.mp h
  rw [remove, hv]

/-! ## The ids in use -/

theorem mem_toList {a : Arena α} {id : SymbolId} {v : α} :
    (id, v) ∈ a.toList ↔ a.get? id = some v := by
  simp only [toList, List.mem_filterMap, Prod.exists, List.mk_mem_zipIdx_iff_getElem?,
    Array.getElem?_toList, get?_eq_some_iff, Option.map_eq_some_iff, Prod.mk.injEq]
  constructor
  · rintro ⟨c, i, hc, w, hw, rfl, rfl⟩
    rw [hc, ← hw]
  · intro h
    exact ⟨_, _, h, v, rfl, rfl, rfl⟩

theorem mem_map_fst_toList {a : Arena α} {id : SymbolId} :
    id ∈ a.toList.map Prod.fst ↔ (a.get? id).isSome := by
  rw [Option.isSome_iff_exists, List.mem_map]
  constructor
  · rintro ⟨⟨k, v⟩, hm, rfl⟩
    exact ⟨v, mem_toList.mp hm⟩
  · rintro ⟨v, hv⟩
    exact ⟨(id, v), mem_toList.mpr hv, rfl⟩

/-- The ids in use are listed in the order of their cells. -/
theorem pairwise_index_toList (a : Arena α) :
    (a.toList.map Prod.fst).Pairwise (·.index < ·.index) := by
  have hz : (a.cells.toList.zipIdx.map Prod.snd).Pairwise (· < ·) := by
    rw [List.zipIdx_map_snd]
    exact List.pairwise_lt_range'
  rw [List.pairwise_map] at hz ⊢
  rw [toList, List.pairwise_filterMap]
  refine hz.imp fun {p q} hlt x hx y hy => ?_
  obtain ⟨_, _, rfl⟩ := Option.map_eq_some_iff.mp hx
  obtain ⟨_, _, rfl⟩ := Option.map_eq_some_iff.mp hy
  exact hlt

theorem nodup_map_fst_toList (a : Arena α) : (a.toList.map Prod.fst).Nodup :=
  (pairwise_index_toList a).imp fun hlt he => Nat.ne_of_lt hlt (congrArg SymbolId.index he)

/-! ## Changing every value -/

/-- The arena with every value changed. -/
def map (f : α → β) (a : Arena α) : Arena β :=
  ⟨a.cells.map fun c => ⟨c.generation, c.value.map f⟩, a.free, a.count⟩

theorem get?_map (f : α → β) (a : Arena α) (id : SymbolId) :
    (a.map f).get? id = (a.get? id).map f := by
  simp only [map, get?, Array.getElem?_map]
  cases a.cells[id.index]? with
  | none => rfl
  | some c => by_cases hg : c.generation = id.generation <;> simp [hg]

theorem map_insert (f : α → β) (a : Arena α) (v : α) :
    ((a.insert v).1.map f, (a.insert v).2) = (a.map f).insert (f v) := by
  obtain ⟨cells, free, count⟩ := a
  unfold insert
  cases free with
  | nil => simp [push, map]
  | cons i free =>
    simp only [map, Array.getElem?_map]
    cases cells[i]? with
    | none => simp [push]
    | some c => simp [Array.map_setIfInBounds]

/-- A change that `f` does not see leaves the image alone. -/
theorem map_modify {f : α → β} {g : α → α} (h : ∀ v, f (g v) = f v) (a : Arena α)
    (id : SymbolId) : (a.modify id g).map f = a.map f := by
  simp only [map, modify, Arena.mk.injEq, and_true]
  refine Array.ext_getElem? fun i => ?_
  simp only [Array.getElem?_map, Array.getElem?_modify]
  by_cases hi : id.index = i
  · cases a.cells[i]? with
    | none => simp [hi]
    | some c =>
      by_cases hg : c.generation = id.generation
      · have hc : f ∘ g = f := funext h
        simp [hi, hg, hc]
      · simp [hi, hg]
  · simp [hi]

end Bindery.Arena
