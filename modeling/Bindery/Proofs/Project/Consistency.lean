import Mathlib.Data.List.Perm.Basic
import Bindery.Proofs.Project.Run

/-!
# The tables of a project agree

The symbols, the tables that find them by name and the lists of the units are kept up by separate
steps. After every run they tell the same story.

* `Project.IsPublic`: a symbol that can be found under its short name.
* `History.Consistent`: what the tables have to agree on.
* **`History.consistent_run`**: they do, after every run.
-/

namespace Bindery

/-- A symbol of a unit that is no library, under its short name. -/
def Project.IsPublic (p : Project) (name : String) (id : SymbolId) : Prop :=
  ∃ uri u x, p.units.get? uri = some u ∧ u.scope.isLibrary = false ∧ id ∈ u.symbols ∧
    p.symbol? id = some x ∧ x.name = name

namespace History

/-- **What the tables of a project agree on.** -/
structure Consistent (h : History) : Prop where
  /-- The symbols that are there are those that the units list. -/
  live : (h.project.store.symbols.toList.map Prod.fst).Perm
    (h.project.units.values.flatMap BoundUnit.symbols)
  nodup : (h.project.units.values.flatMap BoundUnit.symbols).Nodup
  uri : ∀ uri u, h.project.units.get? uri = some u →
    ∀ id ∈ u.symbols, ∃ x, h.project.symbol? id = some x ∧ x.uri = uri
  /-- Whoever is found by a name is there and has that name. -/
  short : ∀ n id, h.project.store.names.short.get? n = some id →
    ∃ x, h.project.symbol? id = some x ∧ x.name = n
  shadowed : ∀ n ids, h.project.store.names.shadowed.get? n = some ids →
    ∀ id ∈ ids, ∃ x, h.project.symbol? id = some x ∧ x.name = n
  qualified : ∀ q id, h.project.store.names.qualified.get? q = some id →
    ∃ x, h.project.symbol? id = some x ∧ x.qualified = q
  /-- A short name finds the symbol of that name that was bound last. -/
  found : ∀ n, (h.project.store.names.byShortName? n).isSome = true ↔
    ∃ id, h.project.IsPublic n id
  latest : ∀ n id, h.project.store.names.byShortName? n = some id → h.project.IsPublic n id ∧
    ∃ before after, h.issued = before ++ id :: after ∧ ∀ k ∈ after, ¬h.project.IsPublic n k
  library : ∀ uri u, h.project.units.get? uri = some u → u.scope.isLibrary = true →
    ∀ id ∈ u.symbols, ∀ n, id ∉ h.project.store.names.holders n

end History

namespace Project

variable {p : Project}

theorem mem_publicIds (n : String) (id : SymbolId) :
    id ∈ p.store.publicIds p.roll n ↔ p.IsPublic n id := by
  rw [Store.mem_publicIds]
  constructor
  · rintro ⟨⟨_, uri, _⟩, he, rfl, hp, x, hx, hn⟩
    obtain ⟨u, hu, hid, hl⟩ := mem_roll.mp he
    refine ⟨uri, u, x, hu, ?_, hid, hx, hn⟩
    rw [← Bool.not_eq_true', ← hl]
    exact hp
  · rintro ⟨uri, u, x, hu, hl, hid, hx, hn⟩
    exact ⟨⟨id, uri, !u.scope.isLibrary⟩, mem_roll.mpr ⟨u, hu, hid, rfl⟩, rfl, by simp [hl],
      x, hx, hn⟩

theorem publicIds_eq_filter (h : p.store.Lists p.roll) (n : String) :
    p.store.publicIds p.roll n =
      (p.roll.map Listing.id).filter (· ∈ p.store.publicIds p.roll n) := by
  rw [List.filter_map]
  refine congrArg (List.map Listing.id) (List.filter_congr fun e he => ?_)
  rw [Bool.eq_iff_iff]
  show _ ↔ decide (e.id ∈ _) = true
  rw [decide_eq_true_iff, Store.mem_publicIds, Bool.and_eq_true, Store.isNamed_iff]
  constructor
  · rintro ⟨hp, hx⟩
    exact ⟨e, he, rfl, hp, hx⟩
  · rintro ⟨e', he', hid, hp, hx⟩
    obtain rfl := List.inj_on_of_nodup_map h.nodup he' he hid
    exact ⟨hp, hx⟩

theorem mem_holders_of_earlier {t : NameTable} {n : String} {ids : List SymbolId}
    (h : t.shadowed.get? n = some ids) {id : SymbolId} (hid : id ∈ ids) : id ∈ t.holders n := by
  rw [NameTable.holders, NameTable.earlier, h]
  exact List.mem_append_right _ hid

theorem mem_holders_of_short {t : NameTable} {n : String} {id : SymbolId}
    (h : t.short.get? n = some id) : id ∈ t.holders n := by
  rw [NameTable.holders, h]
  exact List.mem_append_left _ (List.mem_singleton_self id)

section Lists

variable (h : p.store.Lists p.roll)

include h

theorem mem_holders (n : String) (id : SymbolId) :
    id ∈ p.store.names.holders n ↔ p.IsPublic n id := by
  rw [h.holders, List.mem_reverse, mem_publicIds]

theorem symbol?_of_mem_holders {n : String} {id : SymbolId}
    (hid : id ∈ p.store.names.holders n) : ∃ x, p.symbol? id = some x ∧ x.name = n := by
  obtain ⟨_, _, x, _, _, _, hx, hn⟩ := (mem_holders h n id).mp hid
  exact ⟨x, hx, hn⟩

theorem perm_live : (p.store.symbols.toList.map Prod.fst).Perm
    (p.units.values.flatMap BoundUnit.symbols) := by
  have hnd := h.nodup
  rw [map_id_roll] at hnd
  refine (List.perm_ext_iff_of_nodup (Arena.nodup_map_fst_toList _) hnd).mpr fun id => ?_
  rw [Arena.mem_map_fst_toList, ← map_id_roll]
  exact h.live id

theorem isSome_byShortName?_iff (n : String) :
    (p.store.names.byShortName? n).isSome = true ↔ ∃ id, p.IsPublic n id := by
  rw [h.byShortName?_eq, List.getLast?_isSome]
  constructor
  · intro hne
    obtain ⟨id, hid⟩ := List.exists_mem_of_ne_nil _ hne
    exact ⟨id, (mem_publicIds n id).mp hid⟩
  · rintro ⟨id, hid⟩
    exact List.ne_nil_of_mem ((mem_publicIds n id).mpr hid)

theorem not_mem_holders_of_library {uri : String} {u : BoundUnit} (hu : p.units.get? uri = some u)
    (hlib : u.scope.isLibrary = true) {id : SymbolId} (hid : id ∈ u.symbols) (n : String) :
    id ∉ p.store.names.holders n := by
  intro hn
  obtain ⟨uri', u', _, hu', hlib', hid', _⟩ := (mem_holders h n id).mp hn
  obtain rfl := eq_of_mem_symbols h hu hu' hid hid'
  rw [hu] at hu'
  cases hu'
  rw [hlib] at hlib'
  cases hlib'

end Lists

end Project

namespace History

/-- What is found under a short name was bound after everyone else who could be found. -/
theorem latest_of_isTail {log ids : List SymbolId} (h : IsTail log ids) {q : SymbolId → Bool}
    (hq : ∀ id, q id = true → id ∈ ids) {id : SymbolId} (hl : (ids.filter q).getLast? = some id) :
    ∃ before after, log = before ++ id :: after ∧ ∀ k ∈ after, q k = false := by
  rw [← h q hq, List.getLast?_eq_some_iff] at hl
  obtain ⟨_, hl⟩ := hl
  obtain ⟨l₁, l₂, rfl, -, h₂⟩ := List.filter_eq_append_iff.mp hl
  obtain ⟨l₃, after, rfl, -, -, ha⟩ := List.filter_eq_cons_iff.mp h₂
  refine ⟨l₁ ++ l₃, after, by simp, fun k hk => ?_⟩
  simpa using List.filter_eq_nil_iff.mp ha k hk

/-- What is found under a short name is the symbol of that name that was bound last. -/
theorem latest_byShortName? {h : History} (hl : h.project.store.Lists h.project.roll)
    (ht : IsTail h.issued (h.project.roll.map Listing.id)) {n : String} {id : SymbolId}
    (hid : h.project.store.names.byShortName? n = some id) : h.project.IsPublic n id ∧
      ∃ before after, h.issued = before ++ id :: after ∧ ∀ k ∈ after, ¬h.project.IsPublic n k := by
  rw [hl.byShortName?_eq] at hid
  refine ⟨(Project.mem_publicIds n id).mp (List.mem_of_getLast? hid), ?_⟩
  rw [Project.publicIds_eq_filter hl] at hid
  have hsub : ∀ k, decide (k ∈ h.project.store.publicIds h.project.roll n) = true →
      k ∈ h.project.roll.map Listing.id := by
    intro k hk
    obtain ⟨e, he, rfl, -⟩ := Store.mem_publicIds.mp (of_decide_eq_true hk)
    exact List.mem_map_of_mem he
  obtain ⟨before, after, hlog, ha⟩ := latest_of_isTail ht hsub hid
  refine ⟨before, after, hlog, fun k hk hp => ?_⟩
  have hk := ha k hk
  rw [decide_eq_false_iff_not, Project.mem_publicIds] at hk
  exact hk hp

/-- **The tables of a project agree**, whatever has been done with it. -/
theorem consistent_run (options : Options) (actions : List Action) :
    (run options actions).Consistent := by
  have hl := lists_run options actions
  have ht := isTail_run options actions
  generalize run options actions = h at hl ht
  refine ⟨Project.perm_live hl, ?_, ?_, ?_, ?_, hl.qualified, Project.isSome_byShortName?_iff hl,
    fun n id hid => latest_byShortName? hl ht hid, ?_⟩
  · rw [← Project.map_id_roll]
    exact hl.nodup
  · intro uri u hu id hid
    exact Project.symbol?_of_mem_symbols hl hu hid
  · intro n id hid
    exact Project.symbol?_of_mem_holders hl (Project.mem_holders_of_short hid)
  · intro n ids hids id hid
    exact Project.symbol?_of_mem_holders hl (Project.mem_holders_of_earlier hids hid)
  · intro uri u hu hlib id hid n
    exact Project.not_mem_holders_of_library hl hu hlib hid n

end History

end Bindery
