import Bindery.Proofs.Project.Told

/-!
# What a unit leaves alone

When a unit comes or goes, the symbols of the other units stay. One that has waited for an import
from a unit that comes is told of it, and nothing else about it changes.

* `Symbol.Touched`: what late imports change in a symbol, and what they do not.
* **`Symbol.touched_learnAll`**: a symbol that is told of late imports.
* `Project.symbol?_unload_of_ne`, **`Project.symbol?_bind_of_ne`**: a symbol of another unit.
* **`History.frame_run`**: every symbol, after every run.
-/

namespace Bindery

/-! ## One symbol -/

/-- A class apart from its base. -/
def ClassInfo.unbased (c : ClassInfo) : ClassInfo :=
  { c with base := none, parent := none, awaitedBase := none }

/-- **What late imports change** in the symbol `x`, which becomes `y`. -/
structure Symbol.Touched (late : List LateImport) (x y : Symbol) : Prop where
  /-- Nothing but references. -/
  rest : y = { x with
    table := y.table, edges := y.edges, loaded := y.loaded, classInfo := y.classInfo }
  /-- The names that stand somewhere, in order. -/
  names : y.table.keys = x.table.keys
  /-- Every name stands where it did, and those of the imports are replaced by what was found. -/
  places : ∀ n, y.table.get? n = (x.table.get? n).map fun m =>
    { m with replacement := (LateImport.answer? late n).or m.replacement }
  targets : ∀ n, y.loaded.get? n = ((LateImport.answer? late n).map some).or (x.loaded.get? n)
  /-- Each import adds one dependency at most. -/
  edges : ∃ added, y.edges = x.edges ++ added ∧ added.Sublist (late.map LateImport.edge)
  bases : y.classInfo.map ClassInfo.unbased = x.classInfo.map ClassInfo.unbased
  idle : late = [] → y = x

namespace Symbol

variable (x : Symbol) (ls : List LateImport) (l : LateImport)

theorem edges_learnAll : ∃ added, (x.learnAll ls).edges = x.edges ++ added ∧
    added.Sublist (ls.map LateImport.edge) := by
  induction ls using List.reverseRecOn with
  | nil => exact ⟨[], (List.append_nil _).symm, List.Sublist.refl _⟩
  | append_singleton ls l ih =>
    obtain ⟨added, he, hs⟩ := ih
    rw [learnAll_concat, edges_learn, List.map_append]
    split_ifs
    · exact ⟨added, he, hs.trans (List.sublist_append_left _ _)⟩
    · refine ⟨added ++ [l.edge], ?_, hs.append (List.Sublist.refl _)⟩
      rw [he, List.append_assoc]

theorem unbased_learn (c : ClassInfo) : (c.learn l).unbased = c.unbased := by
  unfold ClassInfo.learn Project.adoptParent completeBase
  split_ifs <;> rfl

theorem unbased_learnAll :
    (x.learnAll ls).classInfo.map ClassInfo.unbased = x.classInfo.map ClassInfo.unbased := by
  induction ls using List.reverseRecOn with
  | nil => rfl
  | append_singleton ls l ih =>
    rw [learnAll_concat, classInfo_learn, Option.map_map, ← ih]
    congr 1
    funext c
    exact unbased_learn l c

theorem touched_learnAll : Touched ls x (x.learnAll ls) where
  rest := rest_of_bare (bare_learnAll x ls)
  names := keys_table_learnAll x ls
  places := get?_table_learnAll x ls
  targets := get?_loaded_learnAll x ls
  edges := edges_learnAll x ls
  bases := unbased_learnAll x ls
  idle h := by
    rw [h]
    rfl

end Symbol

/-! ## Other units -/

namespace Project

variable {p : Project} {uri : String} {id : SymbolId} {x : Symbol}

theorem mem_idsIn_iff (hl : p.store.Lists p.roll) (hx : p.symbol? id = some x) :
    id ∈ p.idsIn uri ↔ x.uri = uri := by
  constructor
  · intro hid
    obtain ⟨u, hu, hid⟩ := mem_idsIn.mp hid
    obtain ⟨y, hy, hyu⟩ := symbol?_of_mem_symbols hl hu hid
    rw [hx, Option.some.injEq] at hy
    rw [hy, hyu]
  · rintro rfl
    have hlive : id ∈ p.roll.map Listing.id := (hl.live id).mp (Option.isSome_of_eq_some hx)
    obtain ⟨e, he, rfl⟩ := List.mem_map.mp hlive
    obtain ⟨u, hu, hid, -⟩ := mem_roll.mp he
    rw [hl.uri e he x hx]
    exact mem_idsIn.mpr ⟨u, hu, hid⟩

theorem symbol?_unload_of_ne (hl : p.store.Lists p.roll) (hx : p.symbol? id = some x)
    (hne : x.uri ≠ uri) : (p.unload uri).1.symbol? id = some x := by
  rw [symbol?_unload, if_neg fun hid => hne ((mem_idsIn_iff hl hx).mp hid), hx]

theorem Continues.get?_units_unload (hc : p.Continues) (hl : p.store.Lists p.roll) (k : String) :
    (p.unload uri).1.units.get? k = if k = uri then none else p.units.get? k := by
  by_cases hk : k = uri
  · rw [if_pos hk, hk, get?_unload_self]
  rw [if_neg hk]
  cases hu : p.units.get? uri with
  | none => rw [unload_of_get?_eq_none hu]
  | some unit =>
    have hstore : (p.unload uri).1.store = unit.symbols.foldl Store.dismiss p.store := by
      rw [store_unload, idsIn_of_get? hu]
    have hunits : (p.unload uri).1.units.get? k =
        (p.units.get? k).map (BoundUnit.retain (p.unload uri).1.store) := by
      rw [hstore, unload, hu]
      exact (Table.get?_mapValues _ _ _).trans (by rw [Table.get?_erase, if_neg hk])
    rw [hunits]
    cases hv : p.units.get? k with
    | none => rfl
    | some v =>
      -- What waits in this unit belongs to its own symbols, and none of them has gone.
      have hstay : v.scope.dropStale (p.unload uri).1.store.symbols.contains = v.scope := by
        refine Scope.dropStale_eq _ fun n r hr => ?_
        cases hw : v.scope.waiting.get? n with
        | none =>
          rw [Scope.queueOf, hw] at hr
          cases hr
        | some w =>
          rw [Scope.queueOf_of_get? hw] at hr
          obtain ⟨hid, -⟩ := hc.belongs k v hv n w hw r hr
          obtain ⟨y, hy, hyu⟩ := symbol?_of_mem_symbols hl hv hid
          have hy' := symbol?_unload_of_ne hl hy (hyu ▸ hk)
          exact Option.isSome_of_eq_some hy'
      rw [Option.map_some, BoundUnit.retain, hstay]

theorem Continues.waiting?_unload (hc : p.Continues) (hl : p.store.Lists p.roll) (k n : String) :
    (p.unload uri).1.waiting? k n = if k = uri then none else p.waiting? k n := by
  rw [waiting?, hc.get?_units_unload hl]
  split_ifs
  · rfl
  · rfl

section Bind

variable {tree : Tree} {scope : Scope}

/-- **A symbol waits for a unit** under a name that a symbol of the unit declares. -/
structure Meets (p p' : Project) (id : SymbolId) (x : Symbol) (uri : String) (l : LateImport) :
    Prop where
  waits : ∃ w, p.waiting? x.uri l.name = some w ∧ w.source = uri ∧ ∃ r ∈ w.queue, r.symbol = id
  source : l.source = uri
  declared : ∃ new ∈ p'.idsIn uri, ∃ z, p'.symbol? new = some z ∧ z.name = l.name ∧
    z.qualified = l.target

/-- **When another unit comes**, a symbol is told of the imports that it has waited for. -/
theorem symbol?_bind_of_ne (hr : p.Recalls fun _ => True) (hl : p.store.Lists p.roll)
    (hf : scope.IsFresh) (hx : p.symbol? id = some x) (hne : x.uri ≠ scope.uri) (tree : Tree) :
    ∃ late : List LateImport, (p.bind tree scope).1.symbol? id = some (x.learnAll late) ∧
      (late.map LateImport.name).Nodup ∧
        ∀ l ∈ late, p.Meets (p.bind tree scope).1 id x scope.uri l := by
  have hl₀ : (p.unload scope.uri).1.store.Lists _ := lists_unload hl
  have hr₁ : ((p.unload scope.uri).1.enter tree scope).Recalls fun _ => True :=
    (hr.unload hl scope.uri).enter hl₀ hf fun _ _ => trivial
  have hl₁ : ((p.unload scope.uri).1.enter tree scope).store.Lists _ :=
    lists_enter hl₀ get?_unload_self
  have hx₁ : ((p.unload scope.uri).1.enter tree scope).symbol? id = some x :=
    symbol?_enter hl₀ (symbol?_unload_of_ne hl hx hne)
  rw [bind_eq]
  set p₁ := (p.unload scope.uri).1.enter tree scope with hp₁
  have hd := p₁.pairwise_findable scope.uri
  have hc := completed_resolveFound p₁ (p₁.findable scope.uri)
  refine ⟨(p₁.findable scope.uri).flatMap (p₁.told id), ?_, hr₁.continues.nodup_told hl₁ hd id,
    fun l hlm => ?_⟩
  · rw [symbol?_resolveFound p₁ hd, hx₁, Option.map_some]
  · obtain ⟨f, hfm, hlf⟩ := List.mem_flatMap.mp hlm
    have hu : x.uri = f.uri :=
      (mem_idsIn_iff hl₁ hx₁).mp (hr₁.continues.mem_idsIn_of_mem_told hlf)
    obtain ⟨w, hw, r, hr', hid, rfl⟩ := mem_told hlf
    obtain ⟨w', hw', hor, ht⟩ := waiting?_of_mem_findable hfm
    obtain rfl : w' = w := Option.some.inj (hw'.symm.trans hw)
    have hsrc : w'.source = scope.uri := hor.resolve_left (hu ▸ hne)
    refine ⟨⟨w', ?_, hsrc, r, hr', hid⟩, hsrc, ?_⟩
    · rw [hp₁, waiting?_enter, if_neg (hu ▸ hne), hr.continues.waiting?_unload hl,
        if_neg (hu ▸ hne), ← hu] at hw
      exact hw
    · rw [hsrc] at ht
      obtain ⟨new, hnew, z, hz, hname, hq⟩ := mem_of_exportedName? ht
      have hbare : (z.learnAll ((p₁.findable scope.uri).flatMap (p₁.told new))).bare = z.bare :=
        Symbol.bare_learnAll z _
      refine ⟨new, by rwa [hc.idsIn], _, ?_, (Symbol.name_of_bare hbare).trans hname,
        (Symbol.qualified_of_bare hbare).trans hq⟩
      rw [symbol?_resolveFound p₁ hd, hz, Option.map_some]

end Bind

end Project

namespace History

/-- **What a unit leaves alone.** -/
theorem frame_run (options : Options) {actions : List Action} (hf : ∀ a ∈ actions, a.IsFresh)
    {id : SymbolId} {x : Symbol} (hx : (run options actions).project.symbol? id = some x) :
    let p := (run options actions).project
    (∀ uri, x.uri ≠ uri → (p.unload uri).1.symbol? id = some x) ∧
      ∀ tree (scope : Scope), scope.IsFresh → x.uri ≠ scope.uri →
        ∃ late y, (p.bind tree scope).1.symbol? id = some y ∧ x.Touched late y ∧
          (late.map LateImport.name).Nodup ∧
            ∀ l ∈ late, p.Meets (p.bind tree scope).1 id x scope.uri l := by
  intro p
  have hl := lists_run options actions
  have hr := (recalls_run options hf).forget
  refine ⟨fun uri => Project.symbol?_unload_of_ne hl hx, fun tree scope hs hne => ?_⟩
  obtain ⟨late, hy, hnd, hm⟩ := Project.symbol?_bind_of_ne hr hl hs hx hne tree
  exact ⟨late, _, hy, x.touched_learnAll late, hnd, hm⟩

/-- A unit that declares the class `N`. -/
def suppliedTree : Tree :=
  Tree.link
    { file := "v.avt"
      source := "class N {}"
      nodes := #[⟨.identifier "N", ⟨6, 7⟩, none⟩,
        ⟨.classLike .classDeclaration { name := some 0 }, ⟨0, 10⟩, none⟩,
        ⟨.sourceFile [some 1], ⟨0, 10⟩, none⟩] } 2

def suppliedScope : Scope := { uri := "v.avt", path := [] }

/-- The function that waits for `N` is told of it when the unit comes. -/
theorem frame_run_waitingActions : let p := (run {} waitingActions).project
    (∀ a ∈ waitingActions, a.IsFresh) ∧ suppliedScope.IsFresh ∧
      ∃ x late y, p.symbol? ⟨0, 0⟩ = some x ∧ x.uri ≠ suppliedScope.uri ∧
        (p.unload suppliedScope.uri).1.symbol? ⟨0, 0⟩ = some x ∧
        (p.bind suppliedTree suppliedScope).1.symbol? ⟨0, 0⟩ = some y ∧ x.Touched late y ∧
        (late.map LateImport.name).Nodup ∧ late ≠ [] ∧
        ∀ l ∈ late, p.Meets (p.bind suppliedTree suppliedScope).1 ⟨0, 0⟩ x suppliedScope.uri l := by
  intro p
  have hf := isFresh_waitingActions
  have hs : suppliedScope.IsFresh := fun n => rfl
  have hseen : (p.symbol? ⟨0, 0⟩).map (fun x => (x.uri, x.edges.length)) = some ("u.avt", 1) := by
    show ((run {} waitingActions).project.symbol? ⟨0, 0⟩).map _ = _
    rw [run_eq rfl]
    decide +kernel
  have hafter : ((p.bind suppliedTree suppliedScope).1.symbol? ⟨0, 0⟩).map
      (fun y => y.edges.length) = some 2 := by
    show ((Project.bind (run {} waitingActions).project _ _).1.symbol? ⟨0, 0⟩).map _ = _
    rw [run_eq rfl]
    decide +kernel
  obtain ⟨x, hx, hxs⟩ := Option.map_eq_some_iff.mp hseen
  rw [Prod.mk.injEq] at hxs
  have hne : x.uri ≠ suppliedScope.uri := by
    rw [hxs.1]
    decide
  obtain ⟨hunload, hbind⟩ := frame_run {} hf hx
  obtain ⟨late, y, hy, ht, hnd, hm⟩ := hbind suppliedTree suppliedScope hs hne
  refine ⟨hf, hs, x, late, y, hx, hne, hunload _ hne, hy, ht, hnd, fun hnil => ?_, hm⟩
  rw [hy, ht.idle hnil, Option.map_some, hxs.2] at hafter
  cases hafter

end History

end Bindery
