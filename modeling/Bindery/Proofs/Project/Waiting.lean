import Bindery.Proofs.Project.Run

/-!
# Waiting imports

An import waits only as long as its unit has no declaration of that name. Binding a unit looks at
the imports of that unit and at those from it; all others were looked at before.

* `Project.IsSettled`: nothing waits for what is already there.
* `Project.mem_findable`: the waiting imports that a new unit answers are found.
* **`Project.IsSettled.bind`**: binding a unit leaves nothing that waits in vain.
* **`History.isSettled_run`**: neither does any run.
-/

namespace Bindery

namespace Project

/-- **Nothing waits for what is already there**: where an import of `name` waits for the unit
`source`, no symbol of that unit has the name. -/
def IsSettled (p : Project) : Prop :=
  ∀ uri name source, p.awaited? uri name = some source →
    ∀ id ∈ p.idsIn source, ∀ x, p.symbol? id = some x → x.name ≠ name

variable {p p' : Project} {tree : Tree} {scope : Scope}

/-! ## What can be found -/

theorem isSome_exportedName? {uri name : String} {id : SymbolId} {x : Symbol}
    (hid : id ∈ p.idsIn uri) (hx : p.symbol? id = some x) (hn : x.name = name) :
    ∃ target, p.exportedName? uri name = some target := by
  have hm : x ∈ (p.idsIn uri).filterMap p.symbol? := List.mem_filterMap.mpr ⟨id, hid, hx⟩
  have hf : (((p.idsIn uri).filterMap p.symbol?).find? (·.name = name)).isSome = true := by
    rw [List.find?_isSome]
    exact ⟨x, hm, by simpa using hn⟩
  obtain ⟨y, hy⟩ := Option.isSome_iff_exists.mp hf
  exact ⟨y.qualified, by rw [exportedName?, hy, Option.map_some]⟩

theorem mem_findable {uri k name target : String} {w : WaitingImport}
    (hw : p.waiting? k name = some w) (hu : k = uri ∨ w.source = uri)
    (ht : p.exportedName? w.source name = some target) :
    (⟨k, name, target⟩ : Found) ∈ p.findable uri := by
  obtain ⟨u, hk, hw⟩ := Option.bind_eq_some_iff.mp hw
  refine List.mem_flatMap.mpr ⟨(k, u), Table.mem_entries.mpr hk, ?_⟩
  refine List.mem_filterMap.mpr ⟨(name, w), Table.mem_entries.mpr hw, ?_⟩
  show (if k = uri ∨ w.source = uri then _ else none) = _
  rw [if_pos hu, ht]
  rfl

/-! ## What each action does -/

theorem Completed.symbol? (hc : p.Completed p') {id : SymbolId} {x : Symbol}
    (hx : p'.symbol? id = some x) : ∃ y, p.symbol? id = some y ∧ y.name = x.name := by
  have hb := hc.bare id
  rw [hx, Option.map_some, eq_comm, Option.map_eq_some_iff] at hb
  obtain ⟨y, hy, hb⟩ := hb
  exact ⟨y, hy, Symbol.name_of_bare hb⟩

theorem IsSettled.completed (h : p.IsSettled) (hc : p.Completed p') : p'.IsSettled := by
  intro uri name source ha id hid x hx hn
  obtain ⟨y, hy, hyx⟩ := hc.symbol? hx
  rw [hc.idsIn] at hid
  exact h uri name source (hc.awaited? ha) id hid y hy (hyx.trans hn)

theorem IsSettled.unload (h : p.IsSettled) (uri : String) : (p.unload uri).1.IsSettled := by
  intro k name source ha id hid x hx hn
  rw [awaited?_unload] at ha
  rw [idsIn_unload] at hid
  rw [symbol?_unload] at hx
  split_ifs at ha hid hx
  · cases hid
  · exact h k name source ha id hid x hx hn

/-- Imports that a new unit has nothing to do with were looked at before. -/
theorem IsSettled.enter (h : p.IsSettled) (hl : p.store.Lists p.roll) {uri name source : String}
    (hu : uri ≠ scope.uri) (hs : source ≠ scope.uri)
    (ha : (p.enter tree scope).awaited? uri name = some source) :
    ∀ id ∈ (p.enter tree scope).idsIn source, ∀ x, (p.enter tree scope).symbol? id = some x →
      x.name ≠ name := by
  intro id hid x hx
  rw [awaited?_enter hl, if_neg hu] at ha
  rw [idsIn_enter, if_neg hs] at hid
  obtain ⟨u, hu, hm⟩ := mem_idsIn.mp hid
  obtain ⟨y, hy, -⟩ := symbol?_of_mem_symbols hl hu hm
  rw [symbol?_enter hl hy] at hx
  exact h uri name source ha id hid x (hx ▸ hy)

/-- **Binding a unit** leaves no import that waits for what is there. -/
theorem IsSettled.bind (h : p.IsSettled) (hl : p.store.Lists p.roll) (tree : Tree)
    (scope : Scope) : (p.bind tree scope).1.IsSettled := by
  rw [bind_eq]
  have h₀ := h.unload scope.uri
  have hl₀ : (p.unload scope.uri).1.store.Lists _ := lists_unload hl
  set p₁ := (p.unload scope.uri).1.enter tree scope with hp₁
  have hc := completed_resolveFound p₁ (p₁.findable scope.uri)
  intro uri name source ha id hid x hx hn
  obtain ⟨w, hw, rfl⟩ := Option.map_eq_some_iff.mp ha
  obtain ⟨y, hy, hyx⟩ := hc.symbol? hx
  rw [hc.idsIn] at hid
  by_cases hm : uri = scope.uri ∨ w.source = scope.uri
  · -- The import is one of those that were looked at, so it does not wait any more.
    obtain ⟨target, ht⟩ := isSome_exportedName? hid hy (hyx.trans hn)
    have hf := mem_findable (hc.waiting _ _ _ hw) hm ht
    have hnone := waiting?_resolveFound p₁ hf
    rw [hw] at hnone
    cases hnone
  · rw [not_or] at hm
    exact h₀.enter hl₀ hm.1 hm.2 (hc.awaited? ha) id hid y hy (hyx.trans hn)

end Project

namespace History

theorem settled_run (options : Options) (actions : List Action) :
    (run options actions).project.IsSettled := by
  refine (run_induction (P := fun h => h.project.store.Lists h.project.roll ∧
    h.project.IsSettled) ⟨Store.lists_empty, ?_⟩ fun h a _ hp => ?_).2
  · intro uri name source ha
    cases ha
  · obtain ⟨hl, hs⟩ := hp
    cases a with
    | bind tree scope => exact ⟨Project.lists_bind hl tree scope, hs.bind hl tree scope⟩
    | unload uri => exact ⟨Project.lists_unload hl, hs.unload uri⟩
    | supply uri name target =>
      have hc := Project.completed_supplyImport h.project uri name target
      exact ⟨hc.lists hl, hs.completed hc⟩

/-- **No import is left waiting for a declaration that is there**, whatever has been done. -/
theorem isSettled_run (options : Options) (actions : List Action) :
    ∀ uri u, (run options actions).project.units.get? uri = some u →
      ∀ name w, u.scope.waiting.get? name = some w →
        ∀ v, (run options actions).project.units.get? w.source = some v →
          ∀ id ∈ v.symbols, ∃ x, (run options actions).project.symbol? id = some x ∧
            x.name ≠ name := by
  have hl := lists_run options actions
  have hs := settled_run options actions
  intro uri u hu name w hw v hv id hid
  have ha : (run options actions).project.awaited? uri name = some w.source := by
    rw [Project.awaited?, Project.waiting?, hu, Option.bind_some, hw, Option.map_some]
  obtain ⟨x, hx, -⟩ := Project.symbol?_of_mem_symbols hl hv hid
  refine ⟨x, hx, hs uri name w.source ha id ?_ x hx⟩
  rw [Project.idsIn_of_get? hv]
  exact hid

/-- A unit that declares a class `Other`, and one that imports `N` from it. -/
def twoUnits : List Action :=
  [.bind
    (Tree.link
      { file := "m.avt"
        source := "class Other {}"
        nodes := #[⟨.identifier "Other", ⟨6, 11⟩, none⟩,
          ⟨.classLike .classDeclaration { name := some 0 }, ⟨0, 14⟩, none⟩,
          ⟨.sourceFile [some 1], ⟨0, 14⟩, none⟩] } 2)
    { uri := "m.avt", path := [] },
  .bind { file := "u.avt", source := "" }
    (Scope.addWaiting { uri := "u.avt", path := [] } "N" "m.avt")]

theorem isSettled_run_twoUnits : ∃ u w v id,
    (run {} twoUnits).project.units.get? "u.avt" = some u ∧
    u.scope.waiting.get? "N" = some w ∧
    (run {} twoUnits).project.units.get? w.source = some v ∧ id ∈ v.symbols ∧
    ∃ x, (run {} twoUnits).project.symbol? id = some x ∧ x.name ≠ "N" := by
  have hwait : (run {} twoUnits).project.awaited? "u.avt" "N" = some "m.avt" := by decide +kernel
  have hids : (run {} twoUnits).project.idsIn "m.avt" = [⟨0, 0⟩] := by decide +kernel
  obtain ⟨w, hw, hsrc⟩ := Option.map_eq_some_iff.mp hwait
  obtain ⟨u, hu, hw⟩ := Option.bind_eq_some_iff.mp hw
  have hid : ⟨0, 0⟩ ∈ (run {} twoUnits).project.idsIn w.source := by
    rw [hsrc, hids]
    exact List.mem_singleton_self _
  obtain ⟨v, hv, hid⟩ := Project.mem_idsIn.mp hid
  exact ⟨u, w, v, _, hu, hw, hv, hid, isSettled_run {} twoUnits "u.avt" u hu "N" w hw v hv _ hid⟩

end History

end Bindery
