import Bindery.Proofs.Binding.Lineage
import Bindery.Proofs.Project.EmissionGraph
import Bindery.Proofs.Project.Past

/-!
# Bases before the classes that extend them

A class strongly depends on its base, so that the base is emitted first. The dependency is lost where
the base is found late and the class depends on the same declaration already.

* `Past.FindsBase`, `Past.FindsBaseLate`, `Past.FindsBaseOutside`: how a class comes by its base.
* `Past.DropsBase`: the base is found late, and the class does not come to need it.
* **`Symbol.needs_learnAll`**: what a symbol needs after a late import.
* **`History.base_precedes`**: in every project, a class needs its base unless it drops it, and what
  it needs is emitted before it.
-/

namespace Bindery

/-! ## How a class comes by its base -/

namespace Past

/-- A name of the first type that the class extends is looked up. -/
def IsBaseName (past : Past) (n : String) : Prop :=
  ∃ kind parts shape r, past.context.tree.form? past.statement = some (.classLike kind parts) ∧
    (Context.shapesOf .extending (parts.heritage.flatMap past.context.inherited)).head? =
      some shape ∧
    r ∈ past.context.opened past.bound.symbol
      (past.context.shapeReferences (past.context.parameterNames parts.typeParameters) shape) ∧
    r.name = n

/-- The base is declared in the unit, or imported. -/
def FindsBase (past : Past) (q : String) : Prop :=
  ∃ n, past.IsBaseName n ∧ (past.context.scope.meaning n = .sameUnit q ∨
    ∃ source, past.context.scope.meaning n = .imported ⟨q, source⟩)

/-- The base is a name that stands for itself. -/
def FindsBaseOutside (past : Past) (q : String) : Prop :=
  past.IsBaseName q ∧ (past.context.scope.meaning q = .qualified ∨
    past.context.scope.meaning q = .ambient ∨ ∃ uri, past.context.scope.meaning q = .package uri)

/-- The short name of the base that the class waits for. -/
def awaitedBase? (past : Past) : Option String :=
  past.bound.symbol.classInfo.bind ClassInfo.awaitedBase

/-- The base is an import that was found late. -/
def FindsBaseLate (past : Past) (q : String) : Prop :=
  ∃ l ∈ past.late, l.target = q ∧ past.awaitedBase? = some l.name

/-- **The base is found late and not needed**: nothing strong led to it before, and a dependency on
it was there already, or only weak references had waited. -/
def DropsBase (past : Past) (q : String) : Prop :=
  ∃ before l after, past.late = before ++ l :: after ∧ l.target = q ∧
    past.awaitedBase? = some l.name ∧ ¬(past.bound.symbol.learnAll before).Needs q ∧
      (l.deferral.strong = false ∨
        ∃ e ∈ (past.bound.symbol.learnAll before).edges, e.target = q)

end Past

/-! ## What a class needs -/

namespace Symbol

variable {x : Symbol} {q : String}

theorem needs_iff : x.Needs q ↔ ∃ e ∈ x.edges, e.target = q ∧ e.strong = true ∧
    (e.origin = .sameUnit ∨ ∃ source, e.origin = .otherUnit source) := by
  have horigin : ∀ e : Dependency, e ∈ Project.internalEdges x ↔
      e ∈ x.edges ∧ (e.origin = .sameUnit ∨ ∃ source, e.origin = .otherUnit source) := by
    intro e
    rw [Project.internalEdges, List.mem_filter]
    cases e.origin <;> simp
  constructor
  · rintro ⟨e, he, ht, hs⟩
    obtain ⟨he, ho⟩ := (horigin e).mp he
    exact ⟨e, he, ht, hs, ho⟩
  · rintro ⟨e, he, ht, hs, ho⟩
    exact ⟨e, (horigin e).mpr ⟨he, ho⟩, ht, hs⟩

theorem needs_learn (l : LateImport) (hne : q ≠ x.qualified) : (x.learn l).Needs q ↔ x.Needs q ∨
    l.target = q ∧ l.deferral.strong = true ∧ ∀ e ∈ x.edges, e.target ≠ q := by
  rw [needs_iff, needs_iff]
  simp only [mem_edges_learn_iff, or_and_right, exists_or]
  refine or_congr_right ⟨?_, ?_⟩
  · rintro ⟨e, ⟨rfl, -, hnew⟩, rfl, hs, -⟩
    exact ⟨rfl, hs, fun e he ht => hnew (List.mem_map.mpr ⟨e, he, ht⟩)⟩
  · rintro ⟨rfl, hs, hnew⟩
    refine ⟨l.edge, ⟨rfl, hne, fun hm => ?_⟩, rfl, hs, ?_⟩
    · obtain ⟨e, he, ht⟩ := List.mem_map.mp hm
      exact hnew e he ht
    · exact .inr ⟨l.source, rfl⟩

theorem Needs.learnAll (h : x.Needs q) (ls : List LateImport) : (x.learnAll ls).Needs q := by
  rw [needs_iff] at h ⊢
  obtain ⟨e, he, h⟩ := h
  exact ⟨e, (prefix_edges_learnAll x ls).subset he, h⟩

theorem needs_learnAll_of_mem (hq : q ∈ x.edges.map Dependency.target) (ls : List LateImport) :
    (x.learnAll ls).Needs q ↔ x.Needs q := by
  refine ⟨fun h => ?_, fun h => h.learnAll ls⟩
  induction ls using List.reverseRecOn with
  | nil => exact h
  | append_singleton ls l ih =>
    rw [learnAll_concat, needs_iff] at h
    obtain ⟨e, he, rfl, hs⟩ := h
    rcases mem_edges_learn_iff.mp he with he | ⟨rfl, -, hnew⟩
    · exact ih (needs_iff.mpr ⟨e, he, rfl, hs⟩)
    · exact absurd (((prefix_edges_learnAll x ls).map _).subset hq) hnew

theorem target_mem_learn (l : LateImport) (hne : l.target ≠ x.qualified) :
    l.target ∈ (x.learn l).edges.map Dependency.target := by
  by_cases hm : l.target ∈ x.edges.map Dependency.target
  · obtain ⟨e, he, ht⟩ := List.mem_map.mp hm
    exact List.mem_map.mpr ⟨e, mem_edges_learn_iff.mpr (.inl he), ht⟩
  · exact List.mem_map.mpr ⟨l.edge, mem_edges_learn_iff.mpr (.inr ⟨rfl, hne, hm⟩), rfl⟩

/-- **What a symbol needs after a late import** and those that follow it. -/
theorem needs_learnAll (before after : List LateImport) (l : LateImport)
    (hne : l.target ≠ x.qualified) : (x.learnAll (before ++ l :: after)).Needs l.target ↔
      (x.learnAll before).Needs l.target ∨ l.deferral.strong = true ∧
        ∀ e ∈ (x.learnAll before).edges, e.target ≠ l.target := by
  have hq : l.target ≠ (x.learnAll before).qualified := by rwa [qualified_learnAll]
  rw [List.append_cons, learnAll_append, learnAll_concat,
    needs_learnAll_of_mem (target_mem_learn l hq), needs_learn l hq]
  simp only [true_and]

end Symbol

namespace Past

variable {past : Past} {scope : Scope} {id : SymbolId} {x : Symbol} {q : String}

theorem Explains.needs_of_findsBase (h : past.Explains scope id x)
    (hc : x.isClassOrInterface = true) (hne : q ≠ x.qualified) (hf : past.FindsBase q) :
    past.bound.symbol.Needs q := by
  have hbare : past.bound.symbol.bare = x.bare := by rw [h.symbol, Symbol.bare_learnAll]
  have hclass : past.bound.symbol.isClassOrInterface = true :=
    (Symbol.isClassOrInterface_of_bare hbare).trans hc
  obtain ⟨kind, i, parts, ds, hform, hb⟩ := Context.class_of_mem_bind h.bound hclass
  obtain ⟨s, hs⟩ := Context.isBoundAs_bindClass hb
  obtain ⟨n, ⟨kind', parts', shape, r, hform', hshape, hr, rfl⟩, hm⟩ := hf
  rw [hform, Option.some.injEq, Form.classLike.injEq] at hform'
  obtain ⟨rfl, rfl⟩ := hform'
  have hqs : q ≠ s.qualified := by
    rwa [← hs.qualified, Symbol.qualified_of_bare hbare]
  have hmem : r ∈ past.context.opened s
      (past.context.heritageReferences (past.context.parameterNames parts.typeParameters)
        parts.heritage) := by
    rw [← Context.opened_of_bare hs.bare]
    obtain ⟨y, hy, rfl⟩ := List.mem_map.mp (List.mem_of_head? hshape)
    have hsub : past.context.shapeReferences _ y.shape ⊆ past.context.heritageReferences
        (past.context.parameterNames parts.typeParameters) parts.heritage :=
      fun r hr => List.mem_flatMap.mpr ⟨y, List.mem_of_mem_filter hy, hr⟩
    obtain ⟨ht, ho⟩ := List.mem_filter.mp hr
    obtain ⟨r', hr', hrt⟩ := List.mem_filterMap.mp ht
    exact List.mem_filter.mpr ⟨List.mem_filterMap.mpr ⟨r', hsub hr', hrt⟩, ho⟩
  rw [Symbol.needs_iff]
  rcases hm with hm | ⟨source, hm⟩
  · exact ⟨_, hs.strong_mem_edges Context.strong_heritageReferences hmem (by rw [hm]; rfl) hqs, rfl,
      rfl, .inl rfl⟩
  · exact ⟨_, hs.strong_mem_edges Context.strong_heritageReferences hmem (by rw [hm]; rfl) hqs, rfl,
      rfl, .inr ⟨source, rfl⟩⟩

/-- **A class needs its base unless it drops it.** -/
theorem Explains.needs_base_iff (h : past.Explains scope id x)
    (hc : x.isClassOrInterface = true) (hne : q ≠ x.qualified)
    (hf : past.FindsBase q ∨ past.FindsBaseLate q) : x.Needs q ↔ ¬past.DropsBase q := by
  have hq : q ≠ past.bound.symbol.qualified := by
    rwa [← Symbol.qualified_learnAll _ past.late, ← h.symbol]
  rw [h.symbol]
  constructor
  · rintro hn ⟨before, l, after, hlate, rfl, -, hno, hlost⟩
    rw [hlate, Symbol.needs_learnAll _ _ _ hq] at hn
    rcases hn.resolve_left hno with ⟨hs, hnew⟩
    rcases hlost with hw | ⟨e, he, ht⟩
    · rw [hw] at hs
      cases hs
    · exact hnew e he ht
  · intro hkeep
    rcases hf with hf | ⟨l, hl, rfl, ha⟩
    · exact (h.needs_of_findsBase hc hne hf).learnAll _
    · obtain ⟨before, after, hlate⟩ := List.append_of_mem hl
      rw [hlate, Symbol.needs_learnAll _ _ _ hq]
      by_contra hno
      rw [not_or] at hno
      refine hkeep ⟨before, l, after, hlate, rfl, ha, hno.1, ?_⟩
      by_cases hs : l.deferral.strong = true
      · right
        by_contra hnew
        exact hno.2 ⟨hs, fun e he ht => hnew ⟨e, he, ht⟩⟩
      · exact .inl (by simpa using hs)

theorem Explains.finds_base (h : past.Explains scope id x) (hlib : scope.isLibrary = false)
    {c : ClassInfo} (hc : x.classInfo = some c) (hq : c.base = some q) :
    past.FindsBase q ∨ past.FindsBaseLate q ∨ past.FindsBaseOutside q := by
  have hbare : past.bound.symbol.bare = x.bare := by rw [h.symbol, Symbol.bare_learnAll]
  have hclass : past.bound.symbol.isClassOrInterface = true := by
    rw [Symbol.isClassOrInterface_of_bare hbare, Symbol.isClassOrInterface, hc]
    rfl
  obtain ⟨kind, i, parts, ds, hform, hb⟩ := Context.class_of_mem_bind h.bound hclass
  obtain ⟨c₀, hc₀, hi, -⟩ := Context.inherits_bindClass (h.library.symm.trans hlib) hb
  obtain ⟨c', hc', hbase⟩ := Symbol.base_learnAll past.bound.symbol past.late hc₀
  rw [← h.symbol, hc, Option.some.injEq] at hc'
  subst hc'
  rcases hbase with ⟨hbase, -⟩ | ⟨before, l, after, hlate, ha, hbase, -⟩
  · rw [hq, hi.base, eq_comm, Option.bind_eq_some_iff] at hbase
    obtain ⟨shape, hshape, ht⟩ := hbase
    obtain ⟨r, hr, ho⟩ := List.exists_of_findSome?_eq_some ht
    obtain ⟨t, htr, ho⟩ := Option.bind_eq_some_iff.mp ho
    split_ifs at ho with hopen
    have hname : past.IsBaseName t.name := ⟨kind, parts, shape, t, hform, hshape,
      List.mem_filter.mpr ⟨List.mem_filterMap.mpr ⟨r, hr, htr⟩, hopen⟩, rfl⟩
    obtain ⟨⟨_, o⟩, htarget, rfl⟩ := Option.map_eq_some_iff.mp ho
    rcases Context.meaning_of_target? htarget with ⟨hm, -⟩ | ⟨source, hm, -⟩ | ⟨rfl, hm⟩
    · exact .inl ⟨t.name, hname, .inl hm⟩
    · exact .inl ⟨t.name, hname, .inr ⟨source, hm⟩⟩
    · refine .inr (.inr ⟨hname, ?_⟩)
      rcases hm with ⟨hm, -⟩ | ⟨hm, -⟩ | ⟨uri, hm, -⟩
      · exact .inl hm
      · exact .inr (.inl hm)
      · exact .inr (.inr ⟨uri, hm⟩)
  · rw [hq, Option.some.injEq] at hbase
    refine .inr (.inl ⟨l, ?_, hbase.symm, ?_⟩)
    · rw [hlate]
      exact List.mem_append_right _ List.mem_cons_self
    · rw [awaitedBase?, hc₀]
      exact ha

end Past

/-! ## Every project -/

namespace History

/-- **Bases before the classes that extend them.** In every project, a class whose base comes from
the build needs it unless it drops it, and a base that is needed is emitted first. -/
theorem base_precedes (options : Options) {actions : List Action} (hf : ∀ a ∈ actions, a.IsFresh)
    {uri : String} {u : BoundUnit} (hu : (run options actions).project.units.get? uri = some u)
    (hlib : u.scope.isLibrary = false) {id : SymbolId} (hid : id ∈ u.symbols) {x : Symbol}
    (hx : (run options actions).project.symbol? id = some x) {c : ClassInfo}
    (hc : x.classInfo = some c) {q : String} (hq : c.base = some q) (hne : q ≠ x.qualified)
    {k : SymbolId} {y : Symbol} (hy : (run options actions).project.symbol? k = some y)
    (hyq : y.qualified = q) {order : List String}
    (ho : (run options actions).project.emissionGraph.order = .ok order) :
    ∃ past : Past, past.Explains u.scope id x ∧
      (past.FindsBase q ∨ past.FindsBaseLate q ∨ past.FindsBaseOutside q) ∧
      (past.FindsBase q ∨ past.FindsBaseLate q → (x.Needs q ↔ ¬past.DropsBase q)) ∧
      (x.Needs q → Precedes q x.qualified order) := by
  obtain ⟨x', past, hx', -, hp⟩ := ((recalls_run options hf) uri u hu).past id hid
  rw [show (run options actions).project.store.symbol? id = some x from hx,
    Option.some.injEq] at hx'
  subst hx'
  have hclass : x.isClassOrInterface = true := by rw [Symbol.isClassOrInterface, hc]; rfl
  refine ⟨past, hp, hp.finds_base hlib hc hq, hp.needs_base_iff hclass hne, fun hn => ?_⟩
  rw [← hyq] at hn hne ⊢
  exact Project.precedes_of_needs (lists_run options actions) hx hy hn hne ho

/-- A class that extends an import, and that also mentions its base by the qualified name. -/
def derivedTree : Tree :=
  Tree.link
    { file := "u.avt"
      source := "class C extends Base { x: app.Base }"
      nodes := #[⟨.identifier "C", ⟨6, 7⟩, none⟩, ⟨.identifier "Base", ⟨16, 20⟩, none⟩,
        ⟨.instantiation (some 1) [], ⟨16, 20⟩, none⟩,
        ⟨.heritage .extending [some 2], ⟨8, 20⟩, none⟩, ⟨.identifier "x", ⟨23, 24⟩, none⟩,
        ⟨.identifier "app", ⟨26, 29⟩, none⟩, ⟨.identifier "Base", ⟨30, 34⟩, none⟩,
        ⟨.qualifiedName (some 5) (some 6), ⟨26, 34⟩, none⟩,
        ⟨.typeReference (some 7) [], ⟨26, 34⟩, none⟩,
        ⟨.field .property {} { name := some 4, annotation := some 8 }, ⟨23, 34⟩, none⟩,
        ⟨.classLike .classDeclaration
          { name := some 0, heritage := [some 3], members := [some 9] }, ⟨0, 36⟩, none⟩,
        ⟨.sourceFile [some 10], ⟨0, 36⟩, none⟩] } 11

/-- The base of that class. -/
def baseTree : Tree :=
  Tree.link
    { file := "v.avt"
      source := "class Base {}"
      nodes := #[⟨.identifier "Base", ⟨6, 10⟩, none⟩,
        ⟨.classLike .classDeclaration { name := some 0 }, ⟨0, 13⟩, none⟩,
        ⟨.sourceFile [some 1], ⟨0, 13⟩, none⟩] } 2

/-- Both are bound, the class first. -/
def derivedFirst (imports : Scope → Scope) : List Action :=
  [.bind derivedTree (imports { uri := "u.avt", path := ["app"] }),
    .bind baseTree { uri := "v.avt", path := ["app"] }]

theorem base_precedes_derivedFirst :
    let actions := derivedFirst fun s => s.addImport "Base" "app.Base" "v.avt"
    (∀ a ∈ actions, a.IsFresh) ∧ ∃ u x c y order,
      (run {} actions).project.units.get? "u.avt" = some u ∧ u.scope.isLibrary = false ∧
      ⟨0, 0⟩ ∈ u.symbols ∧ (run {} actions).project.symbol? ⟨0, 0⟩ = some x ∧
      x.classInfo = some c ∧ c.base = some "app.Base" ∧ "app.Base" ≠ x.qualified ∧
      (run {} actions).project.symbol? ⟨1, 0⟩ = some y ∧ y.qualified = "app.Base" ∧
      (run {} actions).project.emissionGraph.order = .ok order ∧
      Precedes "app.Base" x.qualified order := by
  intro actions
  have hf : ∀ a ∈ actions, a.IsFresh := by
    intro a ha
    simp only [actions, derivedFirst, List.mem_cons, List.not_mem_nil, or_false] at ha
    rcases ha with rfl | rfl <;> exact fun n => rfl
  obtain ⟨hunit, hclass, hbase, horder⟩ :
      ((run {} actions).project.units.get? "u.avt").map (fun u => (u.scope.isLibrary, u.symbols)) =
          some (false, [⟨0, 0⟩]) ∧
        ((run {} actions).project.symbol? ⟨0, 0⟩).map (fun x =>
          (x.qualified, x.classInfo.map ClassInfo.base, x.edges.take 1)) =
            some ("app.C", some (some "app.Base"), [⟨"app.Base", .otherUnit "v.avt", true⟩]) ∧
        ((run {} actions).project.symbol? ⟨1, 0⟩).map Symbol.qualified = some "app.Base" ∧
        (run {} actions).project.emissionGraph.order.toOption = some ["app.Base", "app.C"] := by
    rw [run_eq rfl]
    decide +kernel
  obtain ⟨u, hu, hunit⟩ := Option.map_eq_some_iff.mp hunit
  obtain ⟨x, hx, hclass⟩ := Option.map_eq_some_iff.mp hclass
  obtain ⟨y, hy, hyq⟩ := Option.map_eq_some_iff.mp hbase
  simp only [Prod.mk.injEq, Option.map_eq_some_iff] at hunit hclass
  obtain ⟨hq, ⟨c, hc, hcb⟩, hedges⟩ := hclass
  have hid : ⟨0, 0⟩ ∈ u.symbols := by
    rw [hunit.2]
    exact List.mem_singleton_self _
  have hne : "app.Base" ≠ x.qualified := by
    rw [hq]
    decide
  have ho : (run {} actions).project.emissionGraph.order = .ok ["app.Base", "app.C"] := by
    cases ho : (run {} actions).project.emissionGraph.order with
    | error e =>
      rw [ho] at horder
      cases horder
    | ok order =>
      rw [ho] at horder
      cases horder
      rfl
  obtain ⟨_, -, -, -, hprec⟩ := base_precedes {} hf hu hunit.1 hid hx hc hcb hne hy hyq ho
  refine ⟨hf, u, x, c, y, _, hu, hunit.1, hid, hx, hc, hcb, hne, hy, hyq, ho, hprec ?_⟩
  have he : (⟨"app.Base", .otherUnit "v.avt", true⟩ : Dependency) ∈ x.edges :=
    List.mem_of_mem_take (hedges ▸ List.mem_singleton_self _)
  exact Symbol.needs_iff.mpr ⟨_, he, rfl, rfl, .inr ⟨"v.avt", rfl⟩⟩

/-- Where the import of the base is found late, the class is emitted before its base. -/
theorem not_precedes_derivedFirst :
    let actions := derivedFirst fun s => s.addWaiting "Base" "v.avt"
    ∃ x c y order, (run {} actions).project.symbol? ⟨0, 0⟩ = some x ∧ x.classInfo = some c ∧
      c.base = some "app.Base" ∧ "app.Base" ≠ x.qualified ∧
      (run {} actions).project.symbol? ⟨1, 0⟩ = some y ∧ y.qualified = "app.Base" ∧
      (run {} actions).project.emissionGraph.order = .ok order ∧
      ¬Precedes "app.Base" x.qualified order := by
  intro actions
  obtain ⟨hclass, hbase, horder⟩ :
      ((run {} actions).project.symbol? ⟨0, 0⟩).map (fun x =>
          (x.qualified, x.classInfo.map ClassInfo.base)) = some ("app.C", some (some "app.Base")) ∧
        ((run {} actions).project.symbol? ⟨1, 0⟩).map Symbol.qualified = some "app.Base" ∧
        (run {} actions).project.emissionGraph.order.toOption = some ["app.C", "app.Base"] := by
    rw [run_eq rfl]
    decide +kernel
  obtain ⟨x, hx, hclass⟩ := Option.map_eq_some_iff.mp hclass
  obtain ⟨y, hy, hyq⟩ := Option.map_eq_some_iff.mp hbase
  simp only [Prod.mk.injEq, Option.map_eq_some_iff] at hclass
  obtain ⟨hq, c, hc, hcb⟩ := hclass
  have ho : (run {} actions).project.emissionGraph.order = .ok ["app.C", "app.Base"] := by
    cases ho : (run {} actions).project.emissionGraph.order with
    | error e =>
      rw [ho] at horder
      cases horder
    | ok order =>
      rw [ho] at horder
      cases horder
      rfl
  refine ⟨x, c, y, _, hx, hc, hcb, by rw [hq]; decide, hy, hyq, ho, fun hp => ?_⟩
  have hfirst := hp.2 [] ["app.Base"] (by rw [hq]; rfl)
  cases hfirst

end History

end Bindery
