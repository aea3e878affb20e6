import Bindery.Proofs.Project.Session

/-!
# Units that come and go

* **`Project.lists_unload`**: when a unit goes, its symbols leave the roll.
* **`Project.lists_enter`**: a new unit brings its symbols to the end of the roll.
* `Project.idsIn_unload`, `Project.idsIn_enter`: the symbols of every unit after either.
* `Project.awaited?_unload`, `Project.awaited?_enter`: the waiting imports of every unit.
-/

namespace Bindery.Project

variable {p : Project} {uri : String} {tree : Tree} {scope : Scope}

/-! ## Rolls -/

theorem mem_roll {e : Listing} : e ∈ p.roll ↔ ∃ u, p.units.get? e.uri = some u ∧
    e.id ∈ u.symbols ∧ e.isPublic = !u.scope.isLibrary := by
  rw [roll, List.mem_flatMap]
  constructor
  · rintro ⟨⟨k, u⟩, hu, he⟩
    obtain ⟨id, hid, rfl⟩ := List.mem_map.mp he
    exact ⟨u, Table.mem_entries.mp hu, hid, rfl⟩
  · rintro ⟨u, hu, hid, hp⟩
    refine ⟨(e.uri, u), Table.mem_entries.mpr hu, List.mem_map.mpr ⟨e.id, hid, ?_⟩⟩
    rw [← hp]

theorem map_id_roll : p.roll.map Listing.id = p.units.values.flatMap BoundUnit.symbols := by
  rw [roll, List.map_flatMap, Table.values, List.flatMap_map]
  congr 1
  funext e
  rw [unitRoll, List.map_map]
  exact List.map_id _

/-- A symbol that is listed is there, and belongs to the unit that lists it. -/
theorem symbol?_of_mem_symbols (h : p.store.Lists p.roll) {u : BoundUnit}
    (hu : p.units.get? uri = some u) {id : SymbolId} (hid : id ∈ u.symbols) :
    ∃ x, p.symbol? id = some x ∧ x.uri = uri := by
  have he : (⟨id, uri, !u.scope.isLibrary⟩ : Listing) ∈ p.roll := mem_roll.mpr ⟨u, hu, hid, rfl⟩
  have hlive := (h.live id).mpr (List.mem_map_of_mem he)
  obtain ⟨x, hx⟩ := Option.isSome_iff_exists.mp hlive
  exact ⟨x, hx, h.uri _ he x hx⟩

theorem eq_of_mem_symbols (h : p.store.Lists p.roll) {uri' : String} {u u' : BoundUnit}
    (hu : p.units.get? uri = some u) (hu' : p.units.get? uri' = some u') {id : SymbolId}
    (hid : id ∈ u.symbols) (hid' : id ∈ u'.symbols) : uri = uri' := by
  obtain ⟨x, hx, rfl⟩ := symbol?_of_mem_symbols h hu hid
  obtain ⟨y, hy, rfl⟩ := symbol?_of_mem_symbols h hu' hid'
  rw [hx] at hy
  cases hy
  rfl

theorem mem_idsIn {id : SymbolId} :
    id ∈ p.idsIn uri ↔ ∃ u, p.units.get? uri = some u ∧ id ∈ u.symbols := by
  rw [idsIn]
  cases p.units.get? uri <;> simp

/-! ## A unit goes -/

theorem store_unload : (p.unload uri).1.store = (p.idsIn uri).foldl Store.dismiss p.store := by
  unfold unload idsIn
  cases p.units.get? uri <;> rfl

theorem symbol?_unload (id : SymbolId) : (p.unload uri).1.symbol? id =
    if id ∈ p.idsIn uri then none else p.symbol? id := by
  rw [symbol?, store_unload, Store.symbol?_dismissAll]
  rfl

/-- A unit apart from what waits in its queues. -/
def unitDrained (u : BoundUnit) : BoundUnit := { u with scope := u.scope.drained }

theorem units_unload (k : String) : ((p.unload uri).1.units.get? k).map unitDrained =
    if k = uri then none else (p.units.get? k).map unitDrained := by
  unfold unload
  cases hu : p.units.get? uri with
  | none =>
    by_cases hk : k = uri
    · rw [if_pos hk, hk]
      exact congrArg _ hu
    · rw [if_neg hk]
  | some u =>
    change ((Table.mapValues _ _).get? k).map _ = _
    rw [Table.get?_mapValues, Table.get?_erase]
    by_cases hk : k = uri
    · rw [if_pos hk, if_pos hk]
      rfl
    · rw [if_neg hk, if_neg hk, Option.map_map]
      congr 1
      funext u'
      simp [unitDrained, BoundUnit.retain, Scope.drained_dropStale]

theorem roll_unload : (p.unload uri).1.roll = p.roll.filter (·.uri ≠ uri) := by
  have hf : ∀ es : List (String × BoundUnit), (es.filter (·.1 ≠ uri)).flatMap unitRoll =
      (es.flatMap unitRoll).filter (·.uri ≠ uri) := by
    intro es
    rw [List.filter_flatMap]
    refine Eq.trans ?_ (Entries.flatMap_filter (q := fun n => n ≠ uri) ?_)
    · refine List.flatMap_congr fun e he => (List.filter_eq_self.mpr ?_).symm
      have hne : e.1 ≠ uri := of_decide_eq_true (List.mem_filter.mp he).2
      simp [unitRoll, hne]
    · intro e _ he
      simp_all [unitRoll]
  unfold unload
  cases hu : p.units.get? uri with
  | none =>
    refine (List.filter_eq_self.mpr fun e he => ?_).symm
    obtain ⟨u, he, -⟩ := mem_roll.mp he
    have hne : e.uri ≠ uri := fun hc => by
      rw [hc, hu] at he
      cases he
    simpa using hne
  | some u =>
    change ((List.filter _ _).map _).flatMap unitRoll = _
    rw [List.flatMap_map, roll, ← hf]
    rfl

/-- The unit of a symbol is the unit that lists it. -/
theorem roll_unload_eq (h : p.store.Lists p.roll) :
    (p.unload uri).1.roll = p.roll.filter (·.id ∉ p.idsIn uri) := by
  rw [roll_unload]
  refine List.filter_congr fun e he => ?_
  obtain ⟨u, hu, hid, -⟩ := mem_roll.mp he
  have hiff : e.id ∈ p.idsIn uri ↔ e.uri = uri := by
    rw [mem_idsIn]
    constructor
    · rintro ⟨u', hu', hid'⟩
      exact eq_of_mem_symbols h hu hu' hid hid'
    · rintro rfl
      exact ⟨u, hu, hid⟩
  simp [hiff]

theorem map_id_roll_unload (h : p.store.Lists p.roll) :
    (p.unload uri).1.roll.map Listing.id =
      (p.roll.map Listing.id).filter (· ∉ p.idsIn uri) := by
  rw [roll_unload_eq h, List.filter_map]
  rfl

/-- **When a unit goes**, its symbols leave the roll. -/
theorem lists_unload (h : p.store.Lists p.roll) :
    (p.unload uri).1.store.Lists (p.unload uri).1.roll := by
  rw [roll_unload_eq h, store_unload]
  exact h.dismissAll _

theorem get?_unload_self : (p.unload uri).1.units.get? uri = none := by
  have h : ((p.unload uri).1.units.get? uri).map unitDrained = _ := units_unload uri
  rwa [if_pos rfl, Option.map_eq_none_iff] at h

theorem idsIn_eq (k : String) :
    p.idsIn k = (((p.units.get? k).map unitDrained).map BoundUnit.symbols).getD [] := by
  rw [idsIn, Option.map_map]
  rfl

theorem idsIn_unload (k : String) :
    (p.unload uri).1.idsIn k = if k = uri then [] else p.idsIn k := by
  rw [idsIn_eq, units_unload]
  split_ifs
  · rfl
  · exact (idsIn_eq k).symm

theorem awaited?_eq (k n : String) : p.awaited? k n =
    ((p.units.get? k).map unitDrained).bind fun u =>
      (u.scope.waiting.get? n).map WaitingImport.source := by
  rw [awaited?, waiting?]
  cases p.units.get? k with
  | none => rfl
  | some u =>
    show _ = (u.scope.drained.waiting.get? n).map _
    rw [Scope.get?_waiting_drained, Option.map_map]
    rfl

theorem awaited?_unload (k n : String) :
    (p.unload uri).1.awaited? k n = if k = uri then none else p.awaited? k n := by
  rw [awaited?_eq, units_unload]
  split_ifs
  · rfl
  · exact (awaited?_eq k n).symm

/-! ## A unit comes -/

section Enter

variable (h : p.store.Lists p.roll) (hn : p.units.get? scope.uri = none)

include hn

theorem roll_enter : (p.enter tree scope).roll =
    p.roll ++ unitRoll (scope.uri, ⟨(p.session tree scope).scope, (p.session tree scope).ids⟩) := by
  have hk : scope.uri ∉ p.units.keys := Table.get?_eq_none_iff.mp hn
  rw [roll, enter, Table.entries_insert hk, List.flatMap_append, List.flatMap_singleton, roll]

include h

/-- **A new unit** brings its symbols to the end of the roll. -/
theorem lists_enter : (p.enter tree scope).store.Lists (p.enter tree scope).roll := by
  have hs : (p.session tree scope).Extends _ _ _ := extends_session h
  have hu : (p.session tree scope).scope.uri = scope.uri :=
    (Scope.uri_of_drained hs.scope).trans uri_unitScope
  rw [roll_enter hn]
  have hl := hs.lists
  rw [Session.roll, hu] at hl
  exact hl

end Enter

theorem idsIn_enter (k : String) : (p.enter tree scope).idsIn k =
    if k = scope.uri then (p.session tree scope).ids else p.idsIn k := by
  rw [idsIn, enter, Table.get?_insert, idsIn]
  split_ifs <;> rfl

theorem awaited?_enter (h : p.store.Lists p.roll) (k n : String) :
    (p.enter tree scope).awaited? k n =
      if k = scope.uri then (scope.waiting.get? n).map WaitingImport.source
      else p.awaited? k n := by
  have hs : (p.session tree scope).scope.drained = _ := (extends_session h).scope
  rw [awaited?, waiting?, enter, Table.get?_insert]
  split_ifs
  · exact (Scope.source_of_drained hs n).trans (by rw [waiting_unitScope])
  · rfl

theorem symbol?_enter (h : p.store.Lists p.roll) {id : SymbolId} {x : Symbol}
    (hx : p.symbol? id = some x) : (p.enter tree scope).symbol? id = some x :=
  (extends_session h).old id x hx

end Bindery.Project
