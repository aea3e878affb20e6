import Bindery.Proofs.Project.Continuation

/-!
# What symbols are told

Finding imports tells the symbols that have waited for them, each of its own references. What a
symbol is told can be read off the project before: finding one import does not change what is told
of another.

* `Project.Found.key`, `Project.told`: an import that was found, and what a symbol is told of it.
* **`Project.symbol?_resolveFound`**: a symbol after several imports have been found.
* **`Project.pairwise_findable`**: the imports that can be found for a unit.
* `Project.Continues.nodup_told`: a symbol is told of a name once.
-/

namespace Bindery.Project

variable {p : Project} {uri : String} {id : SymbolId} {f g : Found} {work : List Found}

/-- The import that was found: its unit and its name. -/
def Found.key (f : Found) : String × String := (f.uri, f.name)

/-- **What the symbol `id` is told** of an import that was found. -/
def told (p : Project) (id : SymbolId) (f : Found) : List LateImport :=
  match p.waiting? f.uri f.name with
  | none => []
  | some w => (w.queue.filter (·.symbol = id)).map fun r =>
      ⟨⟨f.name, r.strong, r.placed⟩, f.target, w.source, p.lateParent f.target⟩

theorem told_of_none (h : p.waiting? f.uri f.name = none) : p.told id f = [] := by
  rw [told, h]

theorem told_of_some {w : WaitingImport} (h : p.waiting? f.uri f.name = some w) :
    p.told id f = (w.queue.filter (·.symbol = id)).map fun r =>
      ⟨⟨f.name, r.strong, r.placed⟩, f.target, w.source, p.lateParent f.target⟩ := by
  rw [told, h]

theorem mem_told {l : LateImport} (h : l ∈ p.told id f) : ∃ w,
    p.waiting? f.uri f.name = some w ∧ ∃ r ∈ w.queue, r.symbol = id ∧
      l = ⟨⟨f.name, r.strong, r.placed⟩, f.target, w.source, p.lateParent f.target⟩ := by
  cases hw : p.waiting? f.uri f.name with
  | none =>
    rw [told_of_none hw] at h
    cases h
  | some w =>
    rw [told_of_some hw] at h
    obtain ⟨r, hr, rfl⟩ := List.mem_map.mp h
    obtain ⟨hr, hid⟩ := List.mem_filter.mp hr
    exact ⟨w, rfl, r, hr, by simpa using hid, rfl⟩

theorem name_of_mem_told {l : LateImport} (h : l ∈ p.told id f) : l.name = f.name := by
  obtain ⟨-, -, -, -, -, rfl⟩ := mem_told h
  rfl

/-! ## Finding imports -/

theorem bare_supplyImport (uri name target : String) :
    (p.supplyImport uri name target).1.store.bare = p.store.bare := by
  cases hw : p.waiting? uri name with
  | none => rw [supplyImport_of_none hw]
  | some w =>
    obtain ⟨u, hu, hw⟩ := Option.bind_eq_some_iff.mp hw
    rw [store_supplyImport hu hw, Store.bare_settleAll]

/-- **One import is found.** -/
theorem symbol?_supplyImport_eq (p : Project) (f : Found) (id : SymbolId) :
    (p.supplyImport f.uri f.name f.target).1.symbol? id =
      (p.symbol? id).map (·.learnAll (p.told id f)) := by
  cases hw : p.waiting? f.uri f.name with
  | none =>
    rw [supplyImport_of_none hw, told_of_none hw]
    exact Option.map_id'.symm
  | some w =>
    obtain ⟨u, hu, hq⟩ := Option.bind_eq_some_iff.mp hw
    rw [symbol?_supplyImport hu hq, told_of_some hw]
    congr 1
    funext x
    exact Symbol.foldl_settled x _ _ _ _ _

theorem told_supplyImport (h : f.key ≠ g.key) :
    (p.supplyImport f.uri f.name f.target).1.told id g = p.told id g := by
  have hne : ¬(f.uri = g.uri ∧ f.name = g.name) := fun ⟨hu, hn⟩ => h (Prod.ext hu hn)
  have hw := waiting?_supplyImport_of_ne (p := p) hne f.target
  rw [told, told, hw, lateParent_of_bare (bare_supplyImport _ _ _)]

theorem symbol?_resolveFound (p : Project) (hd : work.Pairwise fun f g => f.key ≠ g.key)
    (id : SymbolId) : (p.resolveFound work).1.symbol? id =
      (p.symbol? id).map (·.learnAll (work.flatMap (p.told id))) := by
  rw [resolveFound_eq]
  induction work generalizing p with
  | nil => exact Option.map_id'.symm
  | cons f work ih =>
    obtain ⟨hf, hd⟩ := List.pairwise_cons.mp hd
    have hrest : work.flatMap ((p.supplyImport f.uri f.name f.target).1.told id) =
        work.flatMap (p.told id) :=
      List.flatMap_congr fun g hg => told_supplyImport (hf g hg)
    rw [List.foldl_cons, ih _ hd, symbol?_supplyImport_eq, Option.map_map, hrest]
    congr 1
    funext x
    exact (Symbol.learnAll_append x _ _).symm

/-! ## What can be found -/

/-- **Every import is found once.** -/
theorem pairwise_findable (p : Project) (uri : String) :
    (p.findable uri).Pairwise fun f g => f.key ≠ g.key := by
  have hkeys : ∀ {α : Type} (t : Table α), t.entries.Pairwise fun e e' => e.1 ≠ e'.1 :=
    fun t => List.pairwise_map.mp t.nodup
  have hfound : ∀ {e : String × BoundUnit} {n : String × WaitingImport} {f : Found},
      (if e.1 = uri ∨ n.2.source = uri then
        (p.exportedName? n.2.source n.1).map fun target => (⟨e.1, n.1, target⟩ : Found)
      else none) = some f → f.key = (e.1, n.1) := by
    intro e n f hf
    split_ifs at hf
    obtain ⟨_, -, rfl⟩ := Option.map_eq_some_iff.mp hf
    rfl
  refine List.pairwise_flatMap.mpr ⟨fun e _ => ?_, (hkeys p.units).imp fun hne f hf g hg => ?_⟩
  · refine List.pairwise_filterMap.mpr ((hkeys e.2.scope.waiting).imp ?_)
    intro n n' hne f hf g hg hfg
    rw [hfound (e := e) hf, hfound (e := e) hg] at hfg
    exact hne (congrArg Prod.snd hfg)
  · obtain ⟨n, -, hf⟩ := List.mem_filterMap.mp hf
    obtain ⟨n', -, hg⟩ := List.mem_filterMap.mp hg
    rw [hfound hf, hfound hg]
    intro hfg
    exact hne (Prod.mk.inj hfg).1

theorem mem_of_exportedName? {name target : String} (h : p.exportedName? uri name = some target) :
    ∃ id ∈ p.idsIn uri, ∃ x, p.symbol? id = some x ∧ x.name = name ∧ x.qualified = target := by
  obtain ⟨x, hx, rfl⟩ := Option.map_eq_some_iff.mp h
  obtain ⟨id, hid, hs⟩ := List.mem_filterMap.mp (List.mem_of_find?_eq_some hx)
  exact ⟨id, hid, x, hs, by simpa using List.find?_some hx, rfl⟩

/-! ## Whom is told -/

theorem Continues.mem_idsIn_of_mem_told (hc : p.Continues) {l : LateImport}
    (h : l ∈ p.told id f) : id ∈ p.idsIn f.uri := by
  obtain ⟨w, hw, r, hr, rfl, -⟩ := mem_told h
  obtain ⟨u, hu, hq⟩ := Option.bind_eq_some_iff.mp hw
  exact mem_idsIn.mpr ⟨u, hu, (hc.belongs f.uri u hu f.name w hq r hr).1⟩

theorem Continues.uri_of_mem_told (hc : p.Continues) (hl : p.store.Lists p.roll) {l : LateImport}
    (hid : id ∈ p.idsIn uri) (h : l ∈ p.told id f) : f.uri = uri := by
  obtain ⟨u, hu, hm⟩ := mem_idsIn.mp (hc.mem_idsIn_of_mem_told h)
  obtain ⟨v, hv, hm'⟩ := mem_idsIn.mp hid
  exact eq_of_mem_symbols hl hu hv hm hm'

theorem Continues.length_told (hc : p.Continues) (f : Found) (id : SymbolId) :
    (p.told id f).length ≤ 1 := by
  cases hw : p.waiting? f.uri f.name with
  | none =>
    rw [told_of_none hw]
    exact Nat.zero_le 1
  | some w =>
    have honce := List.nodup_iff_count_le_one.mp (hc.once f.uri f.name w hw) id
    rw [List.count, List.countP_map, List.countP_eq_length_filter] at honce
    rw [told_of_some hw, List.length_map]
    simpa [Function.comp_def, beq_eq_decide] using honce

/-- **A symbol is told of a name once.** -/
theorem Continues.nodup_told (hc : p.Continues) (hl : p.store.Lists p.roll)
    (hd : work.Pairwise fun f g => f.key ≠ g.key) (id : SymbolId) :
    ((work.flatMap (p.told id)).map LateImport.name).Nodup := by
  refine List.pairwise_map.mpr (List.pairwise_flatMap.mpr ⟨fun f _ => ?_, hd.imp ?_⟩)
  · match p.told id f, hc.length_told f id with
    | [], _ => exact List.Pairwise.nil
    | [l], _ => exact List.pairwise_singleton _ l
  · intro f g hfg l hlf l' hlg hn
    rw [name_of_mem_told hlf, name_of_mem_told hlg] at hn
    obtain ⟨u, hu, hid⟩ := mem_idsIn.mp (hc.mem_idsIn_of_mem_told hlf)
    obtain ⟨v, hv, hid'⟩ := mem_idsIn.mp (hc.mem_idsIn_of_mem_told hlg)
    exact hfg (Prod.ext (eq_of_mem_symbols hl hu hv hid hid') hn)

end Bindery.Project
