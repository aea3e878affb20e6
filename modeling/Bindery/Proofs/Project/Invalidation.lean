import Bindery.Proofs.Graph.Affected
import Bindery.Proofs.Project.Frame
import Bindery.Proofs.Project.Undo

/-!
# Invalidation

When a unit changes, every unit whose symbols depend on it, directly or through others, is affected.
The graph is filled from the dependencies of a unit when the unit is bound and, for imports that
waited, when they are found; it has to know of every dependency at any time.

* `Project.DependsOn`: a symbol of one unit depends on another unit.
* `Project.Follows`: the graph knows of all dependencies.
* **`Project.Follows.unload`**, **`Project.Follows.enter`**, **`Project.Follows.supply`**: this is
  kept.
* **`History.affected_run`**: in every run, affected units are those that depend on a unit.
-/

namespace Bindery

namespace Project

/-- **A symbol of the unit `uri` depends on the unit `source`.** -/
def DependsOn (p : Project) (uri source : String) : Prop :=
  ∃ id ∈ p.idsIn uri, ∃ x, p.symbol? id = some x ∧ ∃ e ∈ x.edges, e.origin = .otherUnit source

/-- **The graph knows of all dependencies** between units. -/
def Follows (p : Project) : Prop :=
  ∀ uri source, p.DependsOn uri source → uri ≠ source →
    source ∈ ImportGraph.neighbours p.graph.imports uri

variable {p : Project} {tree : Tree} {scope : Scope} {uri source : String}

/-! ## Units that come and go -/

theorem Follows.unload (h : p.Follows) (uri : String) : (p.unload uri).1.Follows := by
  cases hu : p.units.get? uri with
  | none => rwa [unload_of_get?_eq_none hu]
  | some unit =>
    rintro k source ⟨id, hid, x, hx, he⟩ hne
    rw [idsIn_unload] at hid
    split_ifs at hid with hk
    · cases hid
    rw [symbol?_unload] at hx
    split_ifs at hx
    rw [graph_unload hu, ImportGraph.neighbours, ImportGraph.get?_imports_forget, if_neg hk]
    exact h k source ⟨id, hid, x, hx, he⟩ hne

theorem Session.mem_imported {s : Session} : source ∈ s.imported ↔
    ∃ id ∈ s.ids, ∃ x, s.store.symbol? id = some x ∧ ∃ e ∈ x.edges,
      e.origin = .otherUnit source := by
  simp only [imported, List.mem_flatMap, List.mem_filterMap]
  constructor
  · rintro ⟨x, ⟨id, hid, hx⟩, e, he, hm⟩
    refine ⟨id, hid, x, hx, e, he, ?_⟩
    cases ho : e.origin with
    | otherUnit k =>
      rw [ho] at hm
      rw [Option.some.inj hm]
    | sameUnit | package | ambient =>
      rw [ho] at hm
      cases hm
  · rintro ⟨id, hid, x, hx, e, he, ho⟩
    refine ⟨x, ⟨id, hid, hx⟩, e, he, ?_⟩
    rw [ho]

theorem Follows.enter (h : p.Follows) (hl : p.store.Lists p.roll) :
    (p.enter tree scope).Follows := by
  rintro k source ⟨id, hid, x, hx, he⟩ hne
  show source ∈ ImportGraph.neighbours ((p.graph.forget scope.uri).addAll scope.uri
    (p.session tree scope).imported).imports k
  rw [idsIn_enter] at hid
  split_ifs at hid with hk
  · subst hk
    rw [ImportGraph.mem_neighbours_addAll]
    exact .inr ⟨Session.mem_imported.mpr ⟨id, hid, x, hx, he⟩, hne.symm⟩
  · rw [ImportGraph.neighbours, ImportGraph.get?_imports_addAll _ hk,
      ImportGraph.get?_imports_forget, if_neg hk]
    obtain ⟨u, hu, hm⟩ := mem_idsIn.mp hid
    obtain ⟨y, hy, -⟩ := symbol?_of_mem_symbols hl hu hm
    rw [symbol?_enter hl hy, Option.some.injEq] at hx
    exact h k source ⟨id, hid, x, hx ▸ hy, he⟩ hne

/-! ## Late imports -/

theorem graph_supplyImport {name : String} {w : WaitingImport} (hw : p.waiting? uri name = some w)
    (target : String) : (p.supplyImport uri name target).1.graph =
      if 0 < (p.supplyImport uri name target).2.1 then p.graph.addImport uri w.source
      else p.graph := by
  obtain ⟨u, hu, hw⟩ := Option.bind_eq_some_iff.mp hw
  simp only [supplyImport, hu, Scope.completeImport?, hw, Option.map_some]

/-- **An import is found**: whoever comes to depend on its unit has waited for it. -/
theorem Follows.supply (h : p.Follows) (hc : p.Continues) (hl : p.store.Lists p.roll) (f : Found) :
    (p.supplyImport f.uri f.name f.target).1.Follows := by
  cases hw : p.waiting? f.uri f.name with
  | none => rwa [supplyImport_of_none hw]
  | some w =>
    rintro k source ⟨id, hid, y, hy, e, he, ho⟩ hne
    rw [(completed_supplyImport p f.uri f.name f.target).idsIn] at hid
    rw [symbol?_supplyImport_eq] at hy
    obtain ⟨x, hx, rfl⟩ := Option.map_eq_some_iff.mp hy
    rw [graph_supplyImport hw, hc.counted _ _ _ hw]
    rcases Symbol.mem_edges_learnAll he with hold | ⟨l, hlt, rfl, -⟩
    · have hm := h k source ⟨id, hid, x, hx, e, hold, ho⟩ hne
      split_ifs
      · change source ∈ ImportGraph.neighbours (p.graph.addAll f.uri [w.source]).imports k
        by_cases hk : k = f.uri
        · rw [hk] at hm ⊢
          exact ImportGraph.mem_neighbours_addAll.mpr (.inl hm)
        · rwa [ImportGraph.neighbours, ImportGraph.get?_imports_addAll _ hk]
      · exact hm
    · obtain rfl : k = f.uri := by
        obtain ⟨u, hu, hid⟩ := mem_idsIn.mp hid
        obtain ⟨v, hv, hid'⟩ := mem_idsIn.mp (hc.mem_idsIn_of_mem_told hlt)
        exact eq_of_mem_symbols hl hu hv hid hid'
      obtain ⟨w', hw', r, hr, -, rfl⟩ := mem_told hlt
      obtain rfl : w' = w := Option.some.inj (hw'.symm.trans hw)
      have hsource : w'.source = source := Origin.otherUnit.inj ho
      rw [if_pos (List.length_pos_of_mem hr), hsource]
      change source ∈ ImportGraph.neighbours (p.graph.addAll f.uri [source]).imports f.uri
      exact ImportGraph.mem_neighbours_addAll.mpr
        (.inr ⟨List.mem_singleton_self source, hne.symm⟩)

theorem Follows.resolveFound (h : p.Follows) (hr : p.Recalls fun _ => True)
    (hl : p.store.Lists p.roll) (work : List Found) : (p.resolveFound work).1.Follows := by
  rw [resolveFound_eq]
  induction work generalizing p with
  | nil => exact h
  | cons f work ih =>
    exact ih (h.supply hr.continues hl f) (hr.supply hl f.uri f.name f.target)
      ((completed_supplyImport _ _ _ _).lists hl)

theorem Follows.bind (h : p.Follows) (hr : p.Recalls fun _ => True) (hl : p.store.Lists p.roll)
    (hf : scope.IsFresh) : (p.bind tree scope).1.Follows := by
  have hl₀ : (p.unload scope.uri).1.store.Lists _ := lists_unload hl
  rw [bind_eq]
  exact ((h.unload scope.uri).enter hl₀).resolveFound
    ((hr.unload hl scope.uri).enter hl₀ hf fun _ _ => trivial) (lists_enter hl₀ get?_unload_self) _

/-! ## Affected units -/

theorem Tracks.unit_of_mem_affected (ht : p.Tracks) (h : source ∈ p.affected uri) :
    source ≠ uri ∧ ∃ u, p.units.get? source = some u := by
  obtain ⟨hreach, hne⟩ := ht.sound.mem_affected_iff.mp h
  refine ⟨hne, ?_⟩
  cases hreach with
  | refl => exact absurd rfl hne
  | step _ hm =>
    -- Whoever imports something is bound.
    have hi := ImportGraph.mem_keys_of_mem_neighbours ((ht.sound.mirror _ _).mpr hm)
    cases hu : p.units.get? source with
    | none => exact absurd (ht.bound source hu) (Option.ne_none_iff_exists'.mpr (Table.mem_keys.mp hi))
    | some u => exact ⟨u, rfl⟩

end Project

namespace History

theorem follows_run (options : Options) {actions : List Action} (hf : ∀ a ∈ actions, a.IsFresh) :
    (run options actions).project.Follows := by
  refine (run_induction (P := fun h => h.project.store.Lists h.project.roll ∧
    (h.project.Recalls fun _ => True) ∧ h.project.Follows) ⟨Store.lists_empty, ?_, ?_⟩
    fun h a ha hp => ?_).2.2
  · intro uri u hu
    cases hu
  · rintro uri source ⟨id, hid, -⟩
    cases hid
  obtain ⟨hl, hr, hg⟩ := hp
  have hfresh := hf a ha
  cases a with
  | bind tree scope =>
    exact ⟨Project.lists_bind hl tree scope, hr.bind hl hfresh fun _ _ => trivial,
      hg.bind hr hl hfresh⟩
  | unload uri => exact ⟨Project.lists_unload hl, hr.unload hl uri, hg.unload uri⟩
  | supply uri name target =>
    exact ⟨(Project.completed_supplyImport _ _ _ _).lists hl, hr.supply hl uri name target,
      hg.supply hr.continues hl ⟨uri, name, target⟩⟩

/-- **Invalidation misses nothing**, and names no unit that is not there. -/
theorem affected_run (options : Options) {actions : List Action} (hf : ∀ a ∈ actions, a.IsFresh) :
    let p := (run options actions).project
    (∀ u v, u ≠ v → p.DependsOn u v → u ∈ p.affected v) ∧
      (∀ u v w, u ∈ p.affected v → w ≠ v → p.DependsOn w u → w ∈ p.affected v) ∧
        ∀ u v, u ∈ p.affected v → u ≠ v ∧ ∃ unit, p.units.get? u = some unit := by
  intro p
  have hg : p.Follows := follows_run options hf
  have ht : p.Tracks := tracks_run options actions
  refine ⟨fun u v hne hd => ?_, fun u v w hu hne hd => ?_, fun u v hu =>
    ht.unit_of_mem_affected hu⟩
  · have hm := (ht.sound.mirror u v).mp (hg u v hd hne)
    exact ht.sound.mem_affected_iff.mpr ⟨.step .refl hm, hne⟩
  · by_cases hwu : w = u
    · rwa [hwu]
    obtain ⟨hreach, -⟩ := ht.sound.mem_affected_iff.mp hu
    have hm := (ht.sound.mirror w u).mp (hg w u hd hwu)
    exact ht.sound.mem_affected_iff.mpr ⟨hreach.step hm, hne⟩

/-- The unit that a function has waited for comes afterwards. -/
def suppliedActions : List Action := waitingActions ++ [.bind suppliedTree suppliedScope]

theorem affected_run_suppliedActions : let p := (run {} suppliedActions).project
    (∀ a ∈ suppliedActions, a.IsFresh) ∧ p.DependsOn "u.avt" "v.avt" ∧
      "u.avt" ∈ p.affected "v.avt" := by
  intro p
  have hf : ∀ a ∈ suppliedActions, a.IsFresh := by
    intro a ha
    rcases List.mem_append.mp ha with ha | ha
    · exact isFresh_waitingActions a ha
    · rw [List.mem_singleton.mp ha]
      exact fun n => rfl
  have hseen : (p.idsIn "u.avt", (p.symbol? ⟨0, 0⟩).map fun x => x.edges.map Dependency.origin) =
      ([⟨0, 0⟩], some [.otherUnit "m.avt", .otherUnit "v.avt"]) := by
    show ((run {} suppliedActions).project.idsIn "u.avt",
      ((run {} suppliedActions).project.symbol? ⟨0, 0⟩).map _) = _
    rw [run_eq rfl]
    decide +kernel
  rw [Prod.mk.injEq, Option.map_eq_some_iff] at hseen
  obtain ⟨hids, x, hx, hedges⟩ := hseen
  have he : Origin.otherUnit "v.avt" ∈ x.edges.map Dependency.origin := by
    rw [hedges]
    exact List.mem_cons_of_mem _ (List.mem_singleton_self _)
  obtain ⟨e, he, ho⟩ := List.mem_map.mp he
  have hd : p.DependsOn "u.avt" "v.avt" :=
    ⟨⟨0, 0⟩, hids ▸ List.mem_singleton_self _, x, hx, e, he, ho⟩
  exact ⟨hf, hd, (affected_run {} hf).1 "u.avt" "v.avt" (by decide) hd⟩

end History

end Bindery
