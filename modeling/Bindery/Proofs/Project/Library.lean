import Bindery.Proofs.Binding.Library
import Bindery.Proofs.Project.Consistency
import Bindery.Proofs.Project.Declares

/-!
# Library units

A library unit brings its declarations and nothing else: its symbols have no references, nothing
waits in it, it imports no unit, and its short names stay private. This stays so until the unit goes.

* `Project.IsQuiet`: a library unit in a project.
* **`Project.isQuiet_enter`**: the unit comes.
* **`Project.IsQuiet.supply`**, `Project.IsQuiet.unload`, `Project.IsQuiet.bind`: whatever happens to
  other units.
* `Action.Spares`: an action that leaves a unit as it was bound.
* **`History.library_run`**: every run.
-/

namespace Bindery

namespace Project

/-- **A library unit**: the symbols `ids`, which are as they were bound, and nothing that waits. -/
structure IsQuiet (p : Project) (uri : String) (ids : List SymbolId) (bs : List Bound) : Prop where
  unit : ∃ u, p.units.get? uri = some u ∧ u.symbols = ids ∧ u.scope.isLibrary = true
  symbols : List.Forall₂ (fun id b => p.symbol? id = some b.symbol) ids bs
  idle : ∀ n w, p.waiting? uri n = some w → w.queue = []
  imports : p.graph.imports.get? uri = none

variable {p : Project} {uri : String} {ids : List SymbolId} {bs : List Bound} {tree : Tree}
  {scope : Scope}

namespace IsQuiet

variable (h : p.IsQuiet uri ids bs)

include h

theorem idsIn : p.idsIn uri = ids := by
  obtain ⟨u, hu, rfl, -⟩ := h.unit
  exact idsIn_of_get? hu

theorem symbols_of_forall {q : Project}
    (hq : ∀ id ∈ ids, ∀ x, p.symbol? id = some x → q.symbol? id = some x) :
    List.Forall₂ (fun id b => q.symbol? id = some b.symbol) ids bs := by
  have hmem := (List.forall₂_and_left _ _).mpr ⟨fun id hid => hid, h.symbols⟩
  exact hmem.imp fun id b ⟨hid, hx⟩ => hq id hid _ hx

/-! ## Other units -/

variable (hl : p.store.Lists p.roll) (hr : p.Recalls fun _ => True)

include hl hr

theorem told_eq_nil {id : SymbolId} (hid : id ∈ ids) (f : Found) : p.told id f = [] := by
  rw [List.eq_nil_iff_forall_not_mem]
  intro l hlm
  rw [← h.idsIn] at hid
  have hu := hr.continues.uri_of_mem_told hl hid hlm
  obtain ⟨w, hw, r, hmem, -⟩ := mem_told hlm
  rw [h.idle f.name w (hu ▸ hw)] at hmem
  cases hmem

theorem supply (f : Found) : (p.supplyImport f.uri f.name f.target).1.IsQuiet uri ids bs := by
  cases hw : p.waiting? f.uri f.name with
  | none => rwa [supplyImport_of_none hw]
  | some w =>
    refine ⟨?unit, ?symbols, ?idle, ?imports⟩
    case unit =>
      obtain ⟨u, hu, hsymbols, hlib⟩ := h.unit
      obtain ⟨v, hv, hw⟩ := Option.bind_eq_some_iff.mp hw
      rw [units_supplyImport hv hw, Table.get?_modify, hu, Option.map_some]
      split_ifs
      · exact ⟨_, rfl, hsymbols, hlib⟩
      · exact ⟨u, rfl, hsymbols, hlib⟩
    case symbols =>
      refine h.symbols_of_forall fun id hid x hx => ?_
      rw [symbol?_supplyImport_eq, hx, h.told_eq_nil hl hr hid]
      rfl
    case idle =>
      exact fun n v hv => h.idle n v ((completed_supplyImport _ _ _ _).waiting _ _ _ hv)
    case imports =>
      rw [graph_supplyImport hw, hr.continues.counted _ _ _ hw]
      split_ifs with hq
      · -- Something has waited, so it is another unit.
        have hne : uri ≠ f.uri := by
          rintro rfl
          rw [h.idle f.name w hw] at hq
          cases hq
        exact (ImportGraph.get?_imports_addAll [w.source] hne).trans h.imports
      · exact h.imports

theorem resolveFound (work : List Found) : (p.resolveFound work).1.IsQuiet uri ids bs := by
  rw [resolveFound_eq]
  induction work generalizing p with
  | nil => exact h
  | cons f work ih =>
    exact ih (h.supply hl hr f) ((completed_supplyImport _ _ _ _).lists hl) (hr.supply hl _ _ _)

theorem unload {k : String} (hk : k ≠ uri) : (p.unload k).1.IsQuiet uri ids bs := by
  refine ⟨?unit, ?symbols, fun n w hw => ?idle, ?imports⟩
  case unit =>
    rw [hr.continues.get?_units_unload hl, if_neg hk.symm]
    exact h.unit
  case symbols =>
    refine h.symbols_of_forall fun id hid x hx => ?_
    rw [← h.idsIn, mem_idsIn_iff hl hx] at hid
    exact symbol?_unload_of_ne hl hx (hid ▸ hk.symm)
  case idle =>
    rw [hr.continues.waiting?_unload hl, if_neg hk.symm] at hw
    exact h.idle n w hw
  case imports =>
    cases hu : p.units.get? k with
    | none =>
      rw [unload_of_get?_eq_none hu]
      exact h.imports
    | some u => rw [graph_unload hu, ImportGraph.get?_imports_forget, if_neg hk.symm, h.imports]

omit hr in
theorem enter (hk : scope.uri ≠ uri) : (p.enter tree scope).IsQuiet uri ids bs := by
  refine ⟨?unit, ?symbols, fun n w hw => ?idle, ?imports⟩
  case unit =>
    rw [Project.enter, Table.get?_insert, if_neg hk.symm]
    exact h.unit
  case symbols => exact h.symbols_of_forall fun id _ x hx => symbol?_enter hl hx
  case idle =>
    rw [waiting?_enter, if_neg hk.symm] at hw
    exact h.idle n w hw
  case imports =>
    refine (ImportGraph.get?_imports_addAll _ hk.symm).trans ?_
    rw [ImportGraph.get?_imports_forget, if_neg hk.symm, h.imports]

theorem bind (hf : scope.IsFresh) (hk : scope.uri ≠ uri) :
    (p.bind tree scope).1.IsQuiet uri ids bs := by
  have hl₀ : (p.unload scope.uri).1.store.Lists _ := lists_unload hl
  rw [bind_eq]
  exact ((h.unload hl hr hk).enter hl₀ hk).resolveFound (lists_enter hl₀ get?_unload_self)
    ((hr.unload hl scope.uri).enter hl₀ hf fun _ _ => trivial) _

end IsQuiet

/-! ## The unit itself -/

theorem namesBases_unitScope {s : Scope} (hs : s.drained = (p.unitScope tree scope).drained)
    {parts : ClassParts} {c : ClassInfo} (h : s.NamesBases tree parts c) :
    (declareAll tree scope).NamesBases tree parts c := by
  have hbuiltins : p.unitScope tree scope = { declareAll tree scope with builtins := p.builtins } :=
    declareAll_hom (f := fun s => { s with builtins := p.builtins }) (fun _ _ => rfl) tree scope
  have hlikely : s.likely = (declareAll tree scope).likely := by
    funext n
    rw [Scope.likely, Scope.locals_of_drained hs, Scope.imports_of_drained hs, hbuiltins]
    rfl
  exact ⟨fun w a hw => hlikely ▸ h.base w a hw, fun w a hw => hlikely ▸ h.interfaces w a hw⟩

theorem scope_session_of_idle {s : Scope} (hs : p.unitScope tree scope = s)
    (hidle : ∀ cx : Context, cx.scope = s → ∀ statement, ∀ b ∈ (cx.bind statement).1,
      b.deferred = []) : (p.session tree scope).scope = s := by
  refine List.foldlRecOn (motive := fun t : Session => t.scope = s) _ _ hs fun t ht statement _ => ?_
  have hall : ∀ (bs : List Bound) (t : Session), t.scope = s → (∀ b ∈ bs, b.deferred = []) →
      (bs.foldl Session.take t).scope = s := by
    intro bs
    induction bs with
    | nil => exact fun t ht _ => ht
    | cons b bs ih =>
      intro t ht hb
      rw [List.forall_mem_cons] at hb
      refine ih _ ?_ hb.2
      rw [t.scope_take, hb.1]
      exact ht
  exact hall _ _ ht (hidle (t.context tree p.options) ht statement)

/-- **A library unit comes.** -/
theorem isQuiet_enter (hl : p.store.Lists p.roll) (hf : scope.IsFresh) (hlib : scope.isLibrary = true)
    (hbs : p.Declared tree scope bs) :
    (p.enter tree scope).IsQuiet scope.uri (p.session tree scope).ids bs := by
  have hunit : (p.unitScope tree scope).isLibrary = true := by
    rw [unitScope, declareAll_eq]
    exact hlib
  have hscope : (p.session tree scope).scope = p.unitScope tree scope :=
    scope_session_of_idle rfl fun cx hcx statement b hb =>
      (Context.quiet_of_mem_bind (hcx ▸ hunit) hb).2
  refine ⟨?unit, ?symbols, fun n w hw => ?idle, ?imports⟩
  case unit =>
    refine ⟨_, (Table.get?_insert _ _ _ _).trans (if_pos rfl), rfl, ?_⟩
    rw [hscope, hunit]
  case symbols => exact hbs.binds
  case idle =>
    rw [waiting?_enter, if_pos rfl, hscope, waiting_unitScope] at hw
    rw [← Scope.queueOf_of_get? hw, hf n]
  case imports =>
    have hnone : (p.session tree scope).imported = [] := by
      rw [List.eq_nil_iff_forall_not_mem]
      intro source hm
      obtain ⟨id, hid, x, hx, e, he, -⟩ := Session.mem_imported.mp hm
      obtain ⟨b, hb, hxb⟩ := exists_partner hbs.binds hid
      rw [hx, Option.some.injEq] at hxb
      obtain ⟨before, statement, after, -, hm⟩ := (hbs.context b).mp hb
      have hquiet := Context.quiet_of_mem_bind
        ((Scope.isLibrary_of_drained (isOf_contextAfter hl tree scope before).scope).trans hunit) hm
      rw [hxb, hquiet.1.edges] at he
      cases he
    rw [Project.enter, hnone]
    exact (ImportGraph.get?_imports_forget _ _).trans (if_pos rfl)

end Project

/-! ## Runs -/

/-- An action that leaves a unit as it was bound: other units come and go, and imports are found. -/
def Action.Spares (uri : String) : Action → Prop
  | .bind _ scope => scope.uri ≠ uri
  | .unload k => k ≠ uri
  | .supply _ _ _ => True

namespace History

/-- **A library unit stays quiet** as long as it is bound. -/
theorem isQuiet_run (options : Options) {before after : List Action} {tree : Tree} {scope : Scope}
    (hf : ∀ a ∈ before ++ .bind tree scope :: after, a.IsFresh) (hlib : scope.isLibrary = true)
    (hspares : ∀ a ∈ after, a.Spares scope.uri) :
    ∃ bs, ((run options before).project.unload scope.uri).1.Declared tree scope bs ∧
      (run options (before ++ .bind tree scope :: after)).project.IsQuiet scope.uri
        ((run options before).project.bind tree scope).2.1 bs := by
  rw [List.forall_mem_append, List.forall_mem_cons] at hf
  obtain ⟨hbefore, hscope, hafter⟩ := hf
  set p := (run options before).project
  have hl : p.store.Lists p.roll := lists_run options before
  have hr : p.Recalls fun _ => True := (recalls_run options hbefore).forget
  have hl₀ : (p.unload scope.uri).1.store.Lists _ := Project.lists_unload hl
  obtain ⟨bs, hbs⟩ := Project.exists_declared hl₀ tree scope
  refine ⟨bs, hbs, ?_⟩
  have hstart : (p.bind tree scope).1.IsQuiet scope.uri (p.bind tree scope).2.1 bs := by
    rw [Project.bind_eq, Project.ids_bind]
    exact (Project.isQuiet_enter hl₀ hscope hlib hbs).resolveFound
      (Project.lists_enter hl₀ Project.get?_unload_self)
      ((hr.unload hl scope.uri).enter hl₀ hscope fun _ _ => trivial) _
  -- What the unit looks like is kept, together with what every project keeps.
  have hrun : ∀ (as : List Action) (h : History), (∀ a ∈ as, a.IsFresh) →
      (∀ a ∈ as, a.Spares scope.uri) → h.project.store.Lists h.project.roll →
        (h.project.Recalls fun _ => True) →
          h.project.IsQuiet scope.uri (p.bind tree scope).2.1 bs →
            (as.foldl step h).project.IsQuiet scope.uri (p.bind tree scope).2.1 bs := by
    intro as
    induction as with
    | nil => exact fun h _ _ _ _ hq => hq
    | cons a as ih =>
      intro h hf hs hl hr hq
      rw [List.forall_mem_cons] at hf hs
      cases a with
      | bind tree' scope' =>
        exact ih _ hf.2 hs.2 (Project.lists_bind hl tree' scope')
          (hr.bind hl hf.1 fun _ _ => trivial) (hq.bind hl hr hf.1 hs.1)
      | unload k =>
        exact ih _ hf.2 hs.2 (Project.lists_unload hl) (hr.unload hl k) (hq.unload hl hr hs.1)
      | supply k name target =>
        exact ih _ hf.2 hs.2 ((Project.completed_supplyImport _ _ _ _).lists hl)
          (hr.supply hl k name target) (hq.supply hl hr ⟨k, name, target⟩)
  rw [run, List.foldl_append, List.foldl_cons]
  exact hrun after _ hafter hspares (Project.lists_bind hl tree scope)
    (hr.bind hl hscope fun _ _ => trivial) hstart

/-- **Library units are free of side effects.** Whatever has been done before and is done afterwards,
as long as the unit is bound its symbols have no dependencies and are written as they stand, nothing
waits in the unit, it imports no other unit, and none of its symbols is found under a short name. What
is declared as a class has the bases that its clauses name. -/
theorem library_run (options : Options) {before after : List Action} {tree : Tree} {scope : Scope}
    (hf : ∀ a ∈ before ++ .bind tree scope :: after, a.IsFresh) (hlib : scope.isLibrary = true)
    (hspares : ∀ a ∈ after, a.Spares scope.uri) :
    let bound := (run options before).project.bind tree scope
    let p := (run options (before ++ .bind tree scope :: after)).project
    p.idsIn scope.uri = bound.2.1 ∧
      (∀ id ∈ bound.2.1, ∃ x, p.symbol? id = some x ∧ x.IsQuiet ∧
        ∃ statement ∈ tree.statements, ∃ i, tree.DeclaresAt statement i x.name x.span ∧
          ∀ kind parts, tree.form? statement = some (.classLike kind parts) →
            ∃ c, x.classInfo = some c ∧
              (Project.declareAll tree scope).NamesBases tree parts c) ∧
      (∀ n w, p.waiting? scope.uri n = some w → w.queue = []) ∧
      p.graph.importsOf scope.uri = [] ∧
      ∀ n x, p.store.byShortName? n = some x → x.uri ≠ scope.uri := by
  intro bound p
  obtain ⟨bs, hbs, hquiet⟩ := isQuiet_run options hf hlib hspares
  have hunit : ((run options before).project.unload scope.uri).1.unitScope tree scope |>.isLibrary :=
    by rwa [Project.unitScope, Project.declareAll_eq]
  refine ⟨hquiet.idsIn, fun id hid => ?symbols, hquiet.idle, ?imports, fun n x hx hu => ?names⟩
  case symbols =>
    obtain ⟨b, hb, hx⟩ := exists_partner hquiet.symbols hid
    obtain ⟨before', statement, after', hst, hm⟩ := (hbs.context b).mp hb
    have hl : ((run options before).project.unload scope.uri).1.store.Lists _ :=
      Project.lists_unload (lists_run options before)
    have hcx := Project.isOf_contextAfter hl tree scope before'
    have hcxlib := (Scope.isLibrary_of_drained hcx.scope).trans hunit
    have hmem : statement ∈ tree.statements := hst ▸ List.mem_append_right _ List.mem_cons_self
    obtain ⟨i, hplace⟩ := Context.exists_declaresAt_of_mem_bind hm
    rw [hcx.tree] at hplace
    refine ⟨b.symbol, hx, (Context.quiet_of_mem_bind hcxlib hm).1, statement, hmem, i, hplace,
      fun kind parts hform => ?_⟩
    obtain ⟨c, hc, hbases⟩ := Context.namesBases_of_mem_bind hcxlib hm (hcx.tree ▸ hform)
    rw [hcx.tree] at hbases
    exact ⟨c, hc, Project.namesBases_unitScope hcx.scope hbases⟩
  case imports =>
    rw [ImportGraph.importsOf, ImportGraph.neighbours, hquiet.imports,
      List.eq_nil_iff_forall_not_mem]
    exact fun k hk => Roster.not_mem_empty k (Text.mem_sortNames.mp hk)
  case names =>
    -- Whoever is found by a short name is one of a source unit.
    have hl := lists_run options (before ++ .bind tree scope :: after)
    obtain ⟨id, hid, hx⟩ := Option.bind_eq_some_iff.mp hx
    obtain ⟨k, u, y, hk, hsource, hmem, hy, -⟩ :=
      ((consistent_run options (before ++ .bind tree scope :: after)).latest n id hid).1
    obtain ⟨v, hv, -, hvlib⟩ := hquiet.unit
    have hids : id ∈ p.idsIn k := Project.mem_idsIn.mpr ⟨u, hk, hmem⟩
    obtain rfl : x.uri = k := (Project.mem_idsIn_iff hl hx).mp hids
    rw [hu, hv, Option.some.injEq] at hk
    rw [← hk, hvlib] at hsource
    cases hsource

/-- `class C extends B {}`. -/
def heirTree : Tree :=
  Tree.link
    { file := "u.avt"
      source := "class C extends B \x7b\x7d"
      nodes := #[⟨.identifier "C", ⟨6, 7⟩, none⟩, ⟨.identifier "B", ⟨16, 17⟩, none⟩,
        ⟨.instantiation (some 1) [], ⟨16, 17⟩, none⟩, ⟨.heritage .extending [some 2], ⟨8, 17⟩, none⟩,
        ⟨.classLike .classDeclaration { name := some 0, heritage := [some 3] }, ⟨0, 20⟩, none⟩,
        ⟨.sourceFile [some 4], ⟨0, 20⟩, none⟩] } 5

/-- The base of the class is imported. -/
def heirScope : Scope :=
  ({ uri := "u.avt", path := ["lib"], kind := .library } : Scope).addWaiting "B" "v.avt"

/-- The import is found while the class is bound, and the class keeps the name that it was written
with. -/
theorem library_run_heirTree :
    let actions := [.bind heirTree heirScope, .supply "u.avt" "B" "app.B"]
    let p := (run {} actions).project
    (∀ a ∈ actions, a.IsFresh) ∧ heirScope.isLibrary = true ∧
      (∀ a ∈ actions.drop 1, a.Spares heirScope.uri) ∧
      (p.symbol? ⟨0, 0⟩).map (fun x => (x.compiled, x.edges)) =
        some ("class C extends B \x7b\x7d", []) ∧
      ((p.symbol? ⟨0, 0⟩).bind fun x => x.classInfo.bind ClassInfo.base) = some "B" ∧
      p.graph.importsOf heirScope.uri = [] := by
  dsimp only
  have hfresh : heirScope.IsFresh :=
    Scope.IsFresh.addWaiting (s := { uri := "u.avt", path := ["lib"], kind := .library })
      (fun _ => rfl) "B" "v.avt"
  have hf : ∀ a ∈ [Action.bind heirTree heirScope, .supply "u.avt" "B" "app.B"], a.IsFresh := by
    simp [Action.IsFresh, hfresh]
  have hspares : ∀ a ∈ [Action.supply "u.avt" "B" "app.B"], a.Spares heirScope.uri := by
    simp [Action.Spares]
  obtain ⟨-, hsymbols, -, himports, -⟩ := @library_run {} [] _ _ _ hf rfl hspares
  have hids : ((run {} []).project.bind heirTree heirScope).2.1 = [⟨0, 0⟩] := by
    rw [run_eq rfl]
    decide +kernel
  obtain ⟨x, hx, hquiet, -⟩ := hsymbols ⟨0, 0⟩ (by rw [hids]; exact List.mem_cons_self)
  have hdata : ((run {} [.bind heirTree heirScope, .supply "u.avt" "B" "app.B"]).project.symbol?
      ⟨0, 0⟩).map (fun x => (x.content, x.classInfo.bind ClassInfo.base)) =
        some ("class C extends B \x7b\x7d", some "B") := by
    rw [run_eq rfl]
    decide +kernel
  rw [List.nil_append] at hx
  rw [hx, Option.map_some, Option.some.injEq, Prod.mk.injEq] at hdata
  refine ⟨hf, rfl, hspares, ?_, ?_, himports⟩
  · rw [hx, Option.map_some, hquiet.compiled, hquiet.edges, hdata.1]
  · rw [hx, Option.bind_some, hdata.2]

end History

end Bindery
