import Bindery.Proofs.Project.Tidy
import Bindery.Proofs.Project.Twin

/-!
# Imports that are found late

A unit is bound while one of its imports waits, and the import is found afterwards. The symbols of
the unit end up beside those of the same unit bound with the import known from the start.

* `Project.Abreast`, `Project.Twin`: a project with the one unit, and a project with the other.
* **`Project.Twin.supply`**, **`Project.Twin.resolveFound`**: other imports are found in both.
* `Project.twin_bind`: the unit is bound in both.
* `Symbol.Ends`: when a symbol ends up with the same places and the same dependencies.
* **`History.late_import`**: it does so in this case exactly, in every project.
-/

namespace Bindery

namespace Project

/-- **Projects that differ in one import** of the unit `uri`: it waits in the first, and is known in
the second. Symbols may differ in their references. -/
structure Abreast (uri name : String) (p p' : Project) : Prop where
  bare : p'.store.bare = p.store.bare
  idsIn : ∀ k, p'.idsIn k = p.idsIn k
  waiting : ∀ k n, p'.waiting? k n = if k = uri ∧ n = name then none else p.waiting? k n
  /-- Imports of that name in other units wait for symbols of those units. -/
  foreign : ∀ k w, k ≠ uri → p.waiting? k name = some w → ∀ r ∈ w.queue, r.symbol ∉ p.idsIn uri

/-- **Projects in which a unit is bound twice**: in the first its import `name` waits for `source`,
in the second it is known to mean `target`. -/
structure Twin (uri name target source : String) (ws : List Bool) (p p' : Project) : Prop where
  bare : p'.store.bare = p.store.bare
  idsIn : ∀ k, p'.idsIn k = p.idsIn k
  waiting : ∀ k n, p'.waiting? k n = if k = uri ∧ n = name then none else p.waiting? k n
  others : ∀ id, id ∉ p.idsIn uri → p'.symbol? id = p.symbol? id
  siblings : ∃ queue, p.waiting? uri name = some ⟨source, queue⟩ ∧
    Siblings name target source queue p.store p'.store (p.idsIn uri) ws
  /-- Imports of that name in other units wait for symbols of those units. -/
  foreign : ∀ k w, k ≠ uri → p.waiting? k name = some w → ∀ r ∈ w.queue, r.symbol ∉ p.idsIn uri

section Twin

variable {uri name target source : String} {ws : List Bool} {p p' : Project}

theorem Twin.abreast (h : Twin uri name target source ws p p') : Abreast uri name p p' :=
  ⟨h.bare, h.idsIn, h.waiting, h.foreign⟩

theorem Twin.awaited? (h : Twin uri name target source ws p p') :
    p.awaited? uri name = some source := by
  obtain ⟨queue, hq, -⟩ := h.siblings
  rw [Project.awaited?, hq, Option.map_some]

theorem lateParent_of_bare (h : p'.store.bare = p.store.bare) (t : String) :
    p'.lateParent t = p.lateParent t := by
  rw [lateParent, Store.names_of_bare h, Store.isClassOrInterface_of_bare h, lateParent]

theorem symbol?_supplyImport {k n : String} {u : BoundUnit} {w : WaitingImport}
    (hu : p.units.get? k = some u) (hw : u.scope.waiting.get? n = some w) (t : String)
    (id : SymbolId) : (p.supplyImport k n t).1.symbol? id = (p.symbol? id).map fun x =>
      (w.queue.filter (·.symbol = id)).foldl (Store.settled n t w.source (p.lateParent t)) x := by
  rw [Project.symbol?, store_supplyImport hu hw, Store.symbol?_settleAll]
  rfl

theorem waiting?_supplyImport_of_ne {k n : String} (hk : ¬(k = uri ∧ n = name)) (t : String) :
    (p.supplyImport k n t).1.waiting? uri name = p.waiting? uri name := by
  cases hw : p.waiting? k n with
  | none => rw [supplyImport_of_none hw]
  | some w =>
    obtain ⟨u, hu, hq⟩ := Option.bind_eq_some_iff.mp hw
    rw [waiting?_supplyImport hu hq, if_neg fun e => hk ⟨e.1.symm, e.2.symm⟩]

section Supply

variable (h : Abreast uri name p p') {k n : String} (hk : ¬(k = uri ∧ n = name)) (t : String)

include h hk

theorem Abreast.waiting_of_ne : p'.waiting? k n = p.waiting? k n := by
  rw [h.waiting, if_neg hk]

theorem Abreast.supply :
    Abreast uri name (p.supplyImport k n t).1 (p'.supplyImport k n t).1 := by
  have hw' := h.waiting_of_ne hk
  cases hw : p.waiting? k n with
  | none => rwa [supplyImport_of_none hw, supplyImport_of_none (hw'.trans hw)]
  | some w =>
    have hc := completed_supplyImport p k n t
    have hc' := completed_supplyImport p' k n t
    obtain ⟨u, hu, hq⟩ := Option.bind_eq_some_iff.mp hw
    obtain ⟨u', hu', hq'⟩ := Option.bind_eq_some_iff.mp (hw'.trans hw)
    refine ⟨?_, fun k' => ?_, fun k' n' => ?_, fun k' w' hk' hw' => ?_⟩
    · rw [store_supplyImport hu hq, store_supplyImport hu' hq', Store.bare_settleAll,
        Store.bare_settleAll, h.bare]
    · rw [hc.idsIn, hc'.idsIn, h.idsIn]
    · rw [waiting?_supplyImport hu hq, waiting?_supplyImport hu' hq', h.waiting]
      split_ifs <;> rfl
    · rw [hc.idsIn]
      exact h.foreign k' w' hk' (hc.waiting _ _ _ hw')

end Supply

/-- **One other import** is found in both. -/
theorem Twin.supply (h : Twin uri name target source ws p p') {k n : String} (t : String)
    (hs : p.awaited? k n ≠ some source) :
    Twin uri name target source ws (p.supplyImport k n t).1 (p'.supplyImport k n t).1 := by
  have hk : ¬(k = uri ∧ n = name) := by
    rintro ⟨rfl, rfl⟩
    exact hs h.awaited?
  have hw' := h.abreast.waiting_of_ne hk
  have ha := h.abreast.supply hk t
  cases hw : p.waiting? k n with
  | none => rwa [supplyImport_of_none hw, supplyImport_of_none (hw'.trans hw)]
  | some w =>
    have hsrc : w.source ≠ source := by
      rintro rfl
      exact hs (by rw [Project.awaited?, hw, Option.map_some])
    have hc := completed_supplyImport p k n t
    obtain ⟨u, hu, hq⟩ := Option.bind_eq_some_iff.mp hw
    obtain ⟨u', hu', hq'⟩ := Option.bind_eq_some_iff.mp (hw'.trans hw)
    have hsym := symbol?_supplyImport hu hq t
    have hsym' := symbol?_supplyImport hu' hq' t
    rw [lateParent_of_bare h.bare] at hsym'
    refine ⟨ha.bare, ha.idsIn, ha.waiting, fun id hid => ?_, ?_, ha.foreign⟩
    · rw [hc.idsIn] at hid
      rw [hsym, hsym', h.others id hid]
    · obtain ⟨queue, hqueue, hsib⟩ := h.siblings
      refine ⟨queue, (waiting?_supplyImport_of_ne hk t).trans hqueue, ?_⟩
      rw [hc.idsIn, store_supplyImport hu hq, store_supplyImport hu' hq',
        lateParent_of_bare h.bare]
      refine hsib.settleAll t _ hsrc ?_
      rintro rfl r hr
      exact h.foreign k w (fun e => hk ⟨e, rfl⟩) hw r hr

theorem Twin.resolveFound (h : Twin uri name target source ws p p') {work : List Found}
    (hs : ∀ f ∈ work, p.awaited? f.uri f.name ≠ some source) :
    Twin uri name target source ws (p.resolveFound work).1 (p'.resolveFound work).1 := by
  rw [resolveFound_eq, resolveFound_eq]
  induction work generalizing p p' with
  | nil => exact h
  | cons f work ih =>
    rw [List.forall_mem_cons] at hs
    have hc := completed_supplyImport p f.uri f.name f.target
    refine ih (h.supply f.target hs.1) fun g hg ha => hs.2 g hg ?_
    exact hc.awaited? ha

end Twin

/-! ## Binding the unit -/

theorem exportedName?_of_bare {p p' : Project} (h : p'.store.bare = p.store.bare)
    (hid : ∀ k, p'.idsIn k = p.idsIn k) (k n : String) :
    p'.exportedName? k n = p.exportedName? k n := by
  have hbare : ∀ q : Project, q.exportedName? k n =
      (((q.idsIn k).filterMap q.store.bare.symbol?).find? (·.name = n)).map Symbol.qualified := by
    intro q
    have hf : q.store.bare.symbol? = fun id => (q.symbol? id).map Symbol.bare :=
      funext q.store.symbol?_bare
    rw [hf, ← List.map_filterMap, List.find?_map, Option.map_map]
    rfl
  rw [hbare, hbare, h, hid]

section Bind

variable {p : Project} {tree : Tree} {u : Scope} {name target source : String}

theorem waiting?_enter (k n : String) : (p.enter tree u).waiting? k n =
    if k = u.uri then (p.session tree u).scope.waiting.get? n else p.waiting? k n := by
  rw [waiting?, enter, Table.get?_insert]
  split_ifs <;> rfl

theorem exportedName?_enter_of_none (tree : Tree) (hne : source ≠ u.uri)
    (hs : p.units.get? source = none) (n : String) :
    (p.enter tree u).exportedName? source n = none := by
  apply exportedName?_of_none
  rw [enter, Table.get?_insert, if_neg hne, hs]

section Enter

variable (hl : p.store.Lists p.roll) (hi : u.imports.get? name = none)
  (hw : u.waiting.get? name = none)

include hl hi hw

theorem twin_enter (tree : Tree) (target source : String) (ht : p.IsTidy) :
    Twin u.uri name target source (p.written tree (u.addWaiting name source) name)
    (p.enter tree (u.addWaiting name source)) (p.enter tree (u.addImport name target source)) := by
  have hs := twin_session hl tree target source hi hw
  have hids : (p.enter tree (u.addWaiting name source)).idsIn u.uri =
      (p.session tree (u.addWaiting name source)).ids := (idsIn_enter _).trans (if_pos rfl)
  refine ⟨hs.bare, fun k => ?_, fun k n => ?_, fun id hid => ?_, ?_, fun k w hk hkw r hr hid => ?_⟩
  · rw [idsIn_enter, idsIn_enter, hs.ids]
    rfl
  · rw [waiting?_enter, waiting?_enter, hs.waiting, Table.get?_erase]
    by_cases hk : k = u.uri <;> by_cases hn : n = name <;> simp [hk, hn, Scope.addImport,
      Scope.addWaiting]
  · rw [hids] at hid
    exact hs.others id hid
  · have hsrc := Scope.source_of_drained hs.first.scope name
    obtain ⟨⟨_, queue⟩, hq, rfl⟩ := Option.map_eq_some_iff.mp
      (hsrc.trans (b := _) (c := some source) (by simp [Scope.addWaiting, Table.get?_insert]))
    refine ⟨queue, (waiting?_enter _ _).trans ((if_pos rfl).trans hq), ?_⟩
    rw [hids, ← show _ = queue from Scope.queueOf_of_get? hq]
    exact hs.siblings
  · -- The symbols of a unit that has just been bound were not there before.
    rw [hids] at hid
    have hold : p.waiting? k name = some w := by
      rwa [waiting?_enter, if_neg (show k ≠ (u.addWaiting name source).uri from hk)] at hkw
    have hlive := (hl.live r.symbol).mp (ht k name w hold r hr)
    have hnd := hs.first.lists.nodup
    rw [List.map_append, List.nodup_append] at hnd
    refine hnd.2.2 _ hlive _ ?_ rfl
    rw [Session.roll, List.map_map]
    exact List.mem_map.mpr ⟨_, hid, rfl⟩

/-- The same imports are found, if the late one is not. -/
theorem findable_enter (tree : Tree) (target : String) (ht : p.IsTidy)
    (hn : p.units.get? u.uri = none)
    (hnone : (p.enter tree (u.addWaiting name source)).exportedName? source name = none) :
    (p.enter tree (u.addImport name target source)).findable u.uri =
      (p.enter tree (u.addWaiting name source)).findable u.uri := by
  have htwin := twin_enter hl hi hw tree target source ht
  have hses := twin_session hl tree target source hi hw
  have hexp := exportedName?_of_bare htwin.bare htwin.idsIn
  have hkeys : u.uri ∉ p.units.keys := Table.get?_eq_none_iff.mp hn
  rw [findable, findable]
  simp only [hexp]
  rw [show (p.enter tree (u.addImport name target source)).units.entries = _ from
      Table.entries_insert hkeys,
    show (p.enter tree (u.addWaiting name source)).units.entries = _ from
      Table.entries_insert hkeys, List.flatMap_append, List.flatMap_append, List.flatMap_singleton,
    List.flatMap_singleton]
  congr 1
  dsimp only
  rw [hses.waiting, Table.erase, List.filterMap_filter]
  refine List.filterMap_congr fun e he => ?_
  obtain ⟨n, w⟩ := e
  by_cases hname : n = name
  · -- The late import itself is not found.
    have hsrc : w.source = source := by
      have hget := Table.mem_entries.mp he
      have hd := Scope.source_of_drained hses.first.scope n
      rw [hget, hname] at hd
      simpa [Scope.addWaiting, Table.get?_insert] using hd
    simp [hname, hsrc, hnone]
  · simp [hname, Scope.addImport, Scope.addWaiting]

end Enter

theorem awaited?_of_mem_findable {q : Project} {uri : String} {f : Found} (h : f ∈ q.findable uri) :
    ∃ src, q.awaited? f.uri f.name = some src ∧ q.exportedName? src f.name = some f.target := by
  obtain ⟨w, hw, -, ht⟩ := waiting?_of_mem_findable h
  refine ⟨w.source, ?_, ht⟩
  rw [awaited?, hw, Option.map_some]

/-- **The unit is bound**, and imports are found, in both projects. -/
theorem twin_bind (hl : p.store.Lists p.roll) (ht : p.IsTidy)
    (hi : u.imports.get? name = none) (hw : u.waiting.get? name = none) (hne : source ≠ u.uri)
    (hs : p.units.get? source = none) : Twin u.uri name target source
      ((p.unload u.uri).1.written tree (u.addWaiting name source) name)
      (p.bind tree (u.addWaiting name source)).1
      (p.bind tree (u.addImport name target source)).1 := by
  have hl₀ : (p.unload u.uri).1.store.Lists _ := lists_unload hl
  have hn₀ : (p.unload u.uri).1.units.get? u.uri = none := get?_unload_self
  have hs₀ : (p.unload u.uri).1.units.get? source = none := by
    have hu : ((p.unload u.uri).1.units.get? source).map unitDrained = _ := units_unload source
    rwa [if_neg hne, hs, Option.map_none, Option.map_eq_none_iff] at hu
  have htwin := twin_enter hl₀ hi hw tree target source (ht.unload u.uri)
  rw [bind_eq, bind_eq, show (u.addImport name target source).uri = u.uri from rfl,
    show (u.addWaiting name source).uri = u.uri from rfl,
    findable_enter hl₀ hi hw tree target (ht.unload u.uri) hn₀
      (exportedName?_enter_of_none (u := u.addWaiting name source) tree hne hs₀ name)]
  -- What is found comes from a unit that is there, so it is not the late import.
  refine htwin.resolveFound fun f hf ha => ?_
  obtain ⟨src, hsrc, hexp⟩ := awaited?_of_mem_findable hf
  rw [ha, Option.some.injEq] at hsrc
  subst hsrc
  rw [exportedName?_enter_of_none (u := u.addWaiting name source) tree hne hs₀] at hexp
  cases hexp

end Bind

end Project

/-! ## The import is found -/

/-- **How a symbol ends up**: it is `a` before its import `name` is found to mean `target`, and `b`
afterwards; `c` is the same symbol with the import known from the start. The name may be `written`,
that is, looked up at its first place or later. -/
structure Symbol.Ends (name target : String) (written : Bool) (a b c : Symbol) : Prop where
  /-- The same places, with the same replacements. -/
  table : b.table = c.table ↔
    (a.loaded.get? name = some none → name ∈ a.table.keys → written = true)
  /-- The same dependencies, in any order. -/
  edges : b.edges.Perm c.edges ↔
    (a.loaded.get? name = some none → target = a.qualified ∨ ∀ e ∈ a.edges, e.target ≠ target)

theorem Sibling.ends {name target source : String} {written : Bool} {queue : List WaitingReference}
    {id : SymbolId} {a c : Symbol} (h : Sibling name target source written queue id a c)
    (parent : Option SymbolId) : Symbol.Ends name target written a
      ((queue.filter (·.symbol = id)).foldl (Store.settled name target source parent) a) c := by
  rcases h with ⟨he, hq⟩ | ⟨strong, placed, hq, ha⟩
  · rw [hq]
    exact ⟨iff_of_true he.table fun hw => absurd hw he.settled,
      iff_of_true (he.edges ▸ List.Perm.refl _) fun hw => absurd hw he.settled⟩
  · have hr : Symbol.Ahead name ⟨target, .otherUnit source,
      (⟨id, strong, placed⟩ : WaitingReference).strong⟩ written a c := ha
    rw [hq]
    refine ⟨(hr.table_iff parent).trans ?_, (hr.edges_iff parent).trans ?_⟩
    · simp only [ha.waits, true_imp_iff]
    · simp only [ha.waits, true_imp_iff]

namespace Project

variable {p p' : Project} {uri name target source : String} {ws : List Bool}

theorem Twin.ends (h : Twin uri name target source ws p p') :
    List.Forall₂ (fun id written => ∃ a b c, p.symbol? id = some a ∧
      (p.supplyImport uri name target).1.symbol? id = some b ∧ p'.symbol? id = some c ∧
        Symbol.Ends name target written a b c) (p.idsIn uri) ws := by
  obtain ⟨queue, hq, hs⟩ := h.siblings
  obtain ⟨u, hu, hq⟩ := Option.bind_eq_some_iff.mp hq
  have hsym := symbol?_supplyImport hu hq target
  refine hs.imp fun id written => ?_
  rintro ⟨a, c, ha, hc, hac⟩
  have hb := hsym id
  rw [show p.symbol? id = some a from ha, Option.map_some] at hb
  exact ⟨a, _, c, ha, hb, hc, hac.ends _⟩

end Project

namespace History

/-- **An import that is found late.** In every project, a unit is bound while its import `name`
waits for a unit that is not there, and the import is then found to mean `target`. Its symbols are
those of the same unit bound with the import known, and `Symbol.Ends` tells when they end up
alike. -/
theorem late_import (options : Options) {actions : List Action} (hf : ∀ a ∈ actions, a.IsFresh)
    (tree : Tree) {u : Scope} {name source : String} (target : String)
    (hi : u.imports.get? name = none) (hw : u.waiting.get? name = none) (hne : source ≠ u.uri)
    (hs : (run options actions).project.units.get? source = none) :
    let p := (run options actions).project
    let late := p.bind tree (u.addWaiting name source)
    let early := p.bind tree (u.addImport name target source)
    early.2.1 = late.2.1 ∧
      List.Forall₂ (fun id written => ∃ a b c, late.1.symbol? id = some a ∧
        (late.1.supplyImport u.uri name target).1.symbol? id = some b ∧
        early.1.symbol? id = some c ∧ Symbol.Ends name target written a b c) late.2.1
        ((p.unload u.uri).1.written tree (u.addWaiting name source) name) := by
  intro p late early
  have hl : p.store.Lists p.roll := lists_run options actions
  have htwin : Project.Twin u.uri name target source _ late.1 early.1 :=
    Project.twin_bind hl (isTidy_run options hf) hi hw hne hs
  have hids : ∀ v : Scope, (p.bind tree v).1.idsIn v.uri = (p.bind tree v).2.1 := by
    intro v
    rw [Project.bind_eq, (Project.completed_resolveFound _ _).idsIn, Project.idsIn_enter,
      if_pos rfl, Project.ids_bind]
  have hlate : late.1.idsIn u.uri = late.2.1 := hids (u.addWaiting name source)
  have hearly : early.1.idsIn u.uri = early.2.1 := hids (u.addImport name target source)
  refine ⟨?_, ?_⟩
  · rw [← hearly, ← hlate, htwin.idsIn]
  · rw [← hlate]
    exact htwin.ends

/-- A function with parameters of two types, both of which are imported. -/
def aliasTree : Tree :=
  Tree.link
    { file := "u.avt"
      source := "function f(a: M, b: N) {}"
      nodes := #[⟨.identifier "f", ⟨9, 10⟩, none⟩, ⟨.identifier "a", ⟨11, 12⟩, none⟩,
        ⟨.identifier "M", ⟨14, 15⟩, none⟩, ⟨.typeReference (some 2) [], ⟨14, 15⟩, none⟩,
        ⟨.field .parameter {} { name := some 1, annotation := some 3 }, ⟨11, 15⟩, none⟩,
        ⟨.identifier "b", ⟨17, 18⟩, none⟩, ⟨.identifier "N", ⟨20, 21⟩, none⟩,
        ⟨.typeReference (some 6) [], ⟨20, 21⟩, none⟩,
        ⟨.field .parameter {} { name := some 5, annotation := some 7 }, ⟨17, 21⟩, none⟩,
        ⟨.block [], ⟨23, 25⟩, none⟩,
        ⟨.function .declaration
          { name := some 0, parameters := [some 4, some 8], body := some 9 }, ⟨0, 25⟩, none⟩,
        ⟨.sourceFile [some 10], ⟨0, 25⟩, none⟩] } 11

/-- One of the types is known to be `Q`. -/
def aliasScope : Scope := Scope.addImport { uri := "u.avt", path := [] } "M" "Q" "m.avt"

/-- A unit without declarations is bound. -/
def moduleActions : List Action :=
  [.bind { file := "m.avt", source := "" } { uri := "m.avt", path := [] }]

theorem late_import_aliasTree :
    (∀ a ∈ moduleActions, a.IsFresh) ∧ aliasScope.imports.get? "N" = none ∧
      aliasScope.waiting.get? "N" = none ∧ "v.avt" ≠ aliasScope.uri ∧
      (run {} moduleActions).project.units.get? "v.avt" = none ∧
      let p := (run {} moduleActions).project
      let late := p.bind aliasTree (aliasScope.addWaiting "N" "v.avt")
      let early := p.bind aliasTree (aliasScope.addImport "N" "Q" "v.avt")
      early.2.1 = late.2.1 ∧
      List.Forall₂ (fun id written => ∃ a b c, late.1.symbol? id = some a ∧
        (late.1.supplyImport aliasScope.uri "N" "Q").1.symbol? id = some b ∧
        early.1.symbol? id = some c ∧ Symbol.Ends "N" "Q" written a b c) late.2.1
        ((p.unload aliasScope.uri).1.written aliasTree (aliasScope.addWaiting "N" "v.avt")
          "N") := by
  have hf : ∀ a ∈ moduleActions, a.IsFresh := by
    intro a ha
    rw [moduleActions, List.mem_singleton] at ha
    subst ha
    exact fun n => rfl
  have hi : aliasScope.imports.get? "N" = none := by decide
  have hw : aliasScope.waiting.get? "N" = none := by decide
  have hne : "v.avt" ≠ aliasScope.uri := by decide
  have hs : (run {} moduleActions).project.units.get? "v.avt" = none := by decide +kernel
  exact ⟨hf, hi, hw, hne, hs, late_import {} hf aliasTree "Q" hi hw hne hs⟩

/-- Where the one type leads to `Q`, the other that is found to be `Q` adds no dependency. Known
from the start, it adds one. -/
theorem not_perm_edges_aliasTree :
    let late := ((Project.empty {}).bind aliasTree (aliasScope.addWaiting "N" "v.avt")).1
    let early := ((Project.empty {}).bind aliasTree (aliasScope.addImport "N" "Q" "v.avt")).1
    ∃ b c, (late.supplyImport "u.avt" "N" "Q").1.symbol? ⟨0, 0⟩ = some b ∧
      early.symbol? ⟨0, 0⟩ = some c ∧ ¬b.edges.Perm c.edges := by
  intro late early
  have hedges : (((late.supplyImport "u.avt" "N" "Q").1.symbol? ⟨0, 0⟩).map Symbol.edges,
      (early.symbol? ⟨0, 0⟩).map Symbol.edges) =
        (some [⟨"Q", .otherUnit "m.avt", false⟩],
          some [⟨"Q", .otherUnit "m.avt", false⟩, ⟨"Q", .otherUnit "v.avt", false⟩]) := by
    decide +kernel
  rw [Prod.mk.injEq, Option.map_eq_some_iff, Option.map_eq_some_iff] at hedges
  obtain ⟨⟨b, hb, hbe⟩, c, hc, hce⟩ := hedges
  refine ⟨b, c, hb, hc, fun hp => ?_⟩
  have hlen := hp.length_eq
  rw [hbe, hce] at hlen
  cases hlen

end History

end Bindery
