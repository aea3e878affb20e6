import Bindery.Proofs.Project.Informed
import Bindery.Proofs.Project.Invalidation

/-!
# Binding a unit again

A unit that has not changed is bound once more. Its symbols get other ids; everything else that can
be seen of it is as it was.

* `Symbol.Repeats`: two symbols of one declaration, under different ids.
* `Session.Repeats`: a session that goes as another one.
* **`Session.Repeats.take`**, **`Session.Repeats.bindStatement`**: one symbol, one statement.
* `Project.Copies`: projects with the same declarations; **`Project.Copies.symbols`**: a unit is
  bound in both.
* **`Project.copies_unload_bind`**: a project in which a unit has come and gone.
* **`History.rebind_run`**: a unit is bound twice, after every run.
-/

namespace Bindery

/-- Two symbols bound from one declaration, which may differ in the symbol of the base. -/
def Bound.Renewed (b b' : Bound) : Prop :=
  b.symbol.orphan = b'.symbol.orphan ∧ b.deferred = b'.deferred

/-- **Two symbols of one declaration**: only the id of the symbol of the base may differ. -/
structure Symbol.Repeats (x y : Symbol) : Prop where
  /-- The declaration, where its names stand, and what it depends on. -/
  rest : y = { x with classInfo := y.classInfo }
  /-- The bases and members of a class. -/
  classInfo : y.classInfo.map ClassInfo.orphan = x.classInfo.map ClassInfo.orphan
  compiled : y.compiled = x.compiled
  constructorText : y.constructorText = x.constructorText
  memberText : y.memberText? = x.memberText?

theorem Symbol.repeats_of_orphan {x y : Symbol} (h : x.orphan = y.orphan) : x.Repeats y where
  rest := (congrArg (fun s : Symbol => { s with classInfo := y.classInfo }) h.symm :)
  classInfo := (congrArg Symbol.classInfo h.symm :)
  compiled := compiled_of_orphan h.symm
  constructorText := constructorText_of_orphan h.symm
  memberText := memberText?_of_orphan h.symm

namespace Project

/-! ## Sessions -/

/-- **A session that goes as another one**, with other ids. -/
structure Session.Repeats (s s' : Session) : Prop where
  informed : s.Informed (fun _ => none) Bound.Renewed s'
  diagnostics : s.diagnostics = s'.diagnostics

theorem Session.Repeats.names {s s' : Session} (h : s.Repeats s') (n : String) :
    (s.store.byShortName? n).map Symbol.qualified =
      (s'.store.byShortName? n).map Symbol.qualified := by
  rw [h.informed.names, Option.or_none]

section Session

variable {store store' : Store} {roll roll' : List Listing} {scope : Scope} {s s' : Session}

theorem Session.diagnostics_take (hs : s.Extends store roll scope) (b : Bound) :
    (s.take b).diagnostics = s.diagnostics ++ (((if s.scope.isLibrary then none
      else (s.store.byShortName? b.symbol.name).map Symbol.qualified).map fun earlier =>
        Diagnostic.ofProblem s.scope.uri b.symbol.nameSpan
          (.duplicateShortName b.symbol.name earlier b.symbol.qualified))).toList := by
  have hprev := hs.lists.previous_enroll b.symbol (!s.scope.isLibrary)
  have hd : (s.take b).diagnostics = s.diagnostics ++
      (((s.store.enroll b.symbol !s.scope.isLibrary).2.2.bind
        (s.store.enroll b.symbol !s.scope.isLibrary).1.symbol?).map fun earlier =>
          Diagnostic.ofProblem s.scope.uri b.symbol.nameSpan
            (.duplicateShortName b.symbol.name earlier.qualified b.symbol.qualified)).toList := rfl
  rw [hd, hprev]
  cases s.scope.isLibrary with
  | true => rfl
  | false =>
    simp only [Bool.not_false, if_true, Bool.false_eq_true, if_false, Option.map_map]
    rfl

variable (h : s.Repeats s') (hs : s.Extends store roll scope) (hs' : s'.Extends store' roll' scope)

include h hs hs'

theorem Session.Repeats.take {b b' : Bound} (hb : b.Renewed b') :
    (s.take b).Repeats (s'.take b') := by
  have hbare := Symbol.bare_of_orphan hb.1
  have hspan : b.symbol.nameSpan = b'.symbol.nameSpan := (congrArg Symbol.nameSpan hbare :)
  refine ⟨h.informed.take hs hs' (fun _ _ hb => Symbol.bare_of_orphan hb.1) hb, ?_⟩
  rw [s.diagnostics_take hs, s'.diagnostics_take hs', h.diagnostics,
    Scope.isLibrary_of_drained h.informed.scope, Symbol.name_of_bare hbare,
    Symbol.qualified_of_bare hbare, hspan, h.names, Scope.uri_of_drained h.informed.scope]

theorem Session.Repeats.takeAll {bs bs' : List Bound} (hb : List.Forall₂ Bound.Renewed bs bs')
    (hu : ∀ b ∈ bs, b.symbol.uri = scope.uri) (hu' : ∀ b ∈ bs', b.symbol.uri = scope.uri) :
    (bs.foldl Session.take s).Repeats (bs'.foldl Session.take s') := by
  induction hb generalizing s s' with
  | nil => exact h
  | cons hb _ ih =>
    rw [List.forall_mem_cons] at hu hu'
    exact ih (h.take hs hs' hb) (hs.take hu.1) (hs'.take hu'.1) hu.2 hu'.2

theorem Session.Repeats.bindStatement (tree : Tree) (options : Options) (statement : Slot) :
    (s.bindStatement tree options statement).Repeats
      (s'.bindStatement tree options statement) := by
  have hunit : (s.context tree options).SameUnit (s'.context tree options) :=
    ⟨rfl, rfl, h.informed.scope⟩
  have hread := h.informed.readsMore hs hs' tree options
  -- Where nothing else is known, the same references are read.
  have hdeclared : (s.context tree options).declarations = (s'.context tree options).declarations :=
    hread.declarations_eq (fun n hn => by simpa using hn.1) fun i j _ =>
      ⟨fun _ _ _ hk => (nomatch hk), fun _ _ hk => (nomatch hk)⟩
  obtain ⟨hb, hd⟩ := hunit.bind (congrFun hdeclared statement)
  have hu : ∀ b ∈ ((s.context tree options).bind statement).1, b.symbol.uri = scope.uri :=
    fun b hb => (Context.uri_of_mem_bind hb).trans (Scope.uri_of_drained hs.scope)
  have hu' : ∀ b ∈ ((s'.context tree options).bind statement).1, b.symbol.uri = scope.uri :=
    fun b hb => (Context.uri_of_mem_bind hb).trans (Scope.uri_of_drained hs'.scope)
  have h' : Session.Repeats { s with diagnostics := s.diagnostics ++
        ((s.context tree options).bind statement).2 }
      { s' with diagnostics := s'.diagnostics ++ ((s'.context tree options).bind statement).2 } :=
    ⟨h.informed.report _ _, congrArg₂ (· ++ ·) h.diagnostics hd⟩
  exact h'.takeAll ⟨hs.scope, hs.lists, hs.old⟩ ⟨hs'.scope, hs'.lists, hs'.old⟩ hb hu hu'

theorem Session.Repeats.bindAll (tree : Tree) (options : Options) (statements : List Slot) :
    (statements.foldl (Session.bindStatement tree options) s).Repeats
      (statements.foldl (Session.bindStatement tree options) s') := by
  induction statements generalizing s s' with
  | nil => exact h
  | cons statement statements ih =>
    exact ih (h.bindStatement hs hs' tree options statement)
      (hs.bindStatement tree options statement) (hs'.bindStatement tree options statement)

end Session

/-! ## Projects in which a unit is bound -/

/-- **Projects with the same declarations** under the same ids. -/
structure Copies (p q : Project) : Prop where
  options : p.options = q.options
  builtins : p.builtins = q.builtins
  roll : p.roll = q.roll
  lists : p.store.Lists p.roll
  lists' : q.store.Lists q.roll
  bare : ∀ id, (p.symbol? id).map Symbol.bare = (q.symbol? id).map Symbol.bare
  idsIn : ∀ uri, p.idsIn uri = q.idsIn uri

variable {p q : Project} {tree : Tree} {scope : Scope}

theorem Copies.names (h : p.Copies q) (n : String) :
    (p.store.byShortName? n).map Symbol.qualified =
      (q.store.byShortName? n).map Symbol.qualified := by
  have hholder : p.store.names.byShortName? n = q.store.names.byShortName? n := by
    rw [h.lists.byShortName?_eq, h.lists'.byShortName?_eq, Store.publicIds_congr h.bare, h.roll]
  rw [Store.byShortName?, Store.byShortName?, hholder, Option.map_bind, Option.map_bind]
  congr 1
  funext id
  exact Symbol.map_of_bare Symbol.qualified_bare (h.bare id)

/-- **A unit is bound in both.** -/
theorem Copies.session (h : p.Copies q) (hf : scope.IsFresh) (tree : Tree) :
    (p.session tree scope).Repeats (q.session tree scope) := by
  have hstart : Session.Repeats { store := p.store, scope := p.unitScope tree scope }
      { store := q.store, scope := q.unitScope tree scope } :=
    ⟨informed_start h.builtins hf tree fun n => by rw [h.names, Option.or_none], rfl⟩
  rw [← unitScope_congr h.builtins] at hstart
  rw [Project.session, Project.session, ← h.options, ← unitScope_congr h.builtins]
  exact hstart.bindAll (Session.extends_start h.lists _) (Session.extends_start h.lists' _) tree
    p.options tree.statements

section Enter

variable (h : p.Copies q) (hf : scope.IsFresh) (tree)

include h hf

/-- **The new symbols**, one by one, and what they were bound as. -/
theorem Copies.holds : List.Forall₂ (fun id id' => ∃ b b', (p.session tree scope).Holds id b ∧
      (q.session tree scope).Holds id' b' ∧ b.Renewed b')
    (p.session tree scope).ids (q.session tree scope).ids := by
  obtain ⟨bs, bs', hc, hc', hbs⟩ := (h.session hf tree).informed.bound
  apply (partners_comp hc.holds (partners_comp hbs hc'.holds.flip)).imp
  intro id id' ⟨b, hb, b', hr, hb'⟩
  exact ⟨b, b', hb, hb', hr⟩

theorem Copies.exportedName? (uri n : String) :
    (p.enter tree scope).exportedName? uri n = (q.enter tree scope).exportedName? uri n := by
  apply exportedName?_congr
  rw [idsIn_enter, idsIn_enter]
  split_ifs
  · apply (h.holds tree hf).imp
    intro id id' ⟨b, b', hb, hb', hr⟩
    rw [show (p.enter tree scope).symbol? id = some b.symbol from hb.symbol,
      show (q.enter tree scope).symbol? id' = some b'.symbol from hb'.symbol, Option.map_some,
      Option.map_some, Symbol.bare_of_orphan hr.1]
  · rw [← h.idsIn uri, List.forall₂_same]
    intro id hid
    obtain ⟨u, hu, hm⟩ := mem_idsIn.mp hid
    obtain ⟨x, hx, -⟩ := symbol?_of_mem_symbols h.lists hu hm
    have hy := h.bare id
    rw [hx, Option.map_some, eq_comm, Option.map_eq_some_iff] at hy
    obtain ⟨y, hy, hb⟩ := hy
    rw [symbol?_enter h.lists hx, symbol?_enter h.lists' hy, Option.map_some, Option.map_some, hb]

variable (hr : p.Recalls fun _ => True) (hr' : q.Recalls fun _ => True)
  (hn : p.units.get? scope.uri = none) (hn' : q.units.get? scope.uri = none)

include hr hr' hn hn'

theorem Copies.symbols : List.Forall₂ (fun id id' => ∃ x y, (p.bind tree scope).1.symbol? id = some x ∧
      (q.bind tree scope).1.symbol? id' = some y ∧ x.Repeats y)
    (p.bind tree scope).2.1 (q.bind tree scope).2.1 := by
  have hlate : ∀ b b' : Bound, b.Renewed b' → (p.enter tree scope).lateOf scope.requests b =
      (q.enter tree scope).lateOf scope.requests b' := by
    intro b b' hb
    simp only [lateOf, Bound.told, h.exportedName? tree hf, hb.2]
  rw [ids_bind_of_new hn, ids_bind_of_new hn']
  apply (h.holds tree hf).imp
  rintro id id' ⟨b, b', hb, hb', hrenew⟩
  have hx := orphan_bind h.lists hr hn hf hb
  have hy := orphan_bind h.lists' hr' hn' hf hb'
  obtain ⟨x, hx, hxo⟩ := Option.map_eq_some_iff.mp hx
  obtain ⟨y, hy, hyo⟩ := Option.map_eq_some_iff.mp hy
  refine ⟨x, y, hx, hy, Symbol.repeats_of_orphan ?_⟩
  rw [hxo, hyo, hlate b b' hrenew, hrenew.1]

theorem Copies.diagnostics : (p.bind tree scope).2.2 = (q.bind tree scope).2.2 := by
  have hreport : ∀ {p : Project}, p.store.Lists p.roll → (p.Recalls fun _ => True) →
      p.units.get? scope.uri = none →
        (p.bind tree scope).2.2 = (p.session tree scope).diagnostics := by
    intro p hl hr hn
    have hr₁ : (p.enter tree scope).Recalls fun _ => True := hr.enter hl hf fun _ _ => trivial
    rw [reports_bind, unload_of_get?_eq_none hn, hr₁.reports_resolveFound (lists_enter hl hn),
      List.append_nil]
  rw [hreport h.lists hr hn, hreport h.lists' hr' hn', (h.session hf tree).diagnostics]

omit hr hr' in
theorem Copies.names_bind (n : String) :
    ((p.bind tree scope).1.store.byShortName? n).map Symbol.qualified =
      ((q.bind tree scope).1.store.byShortName? n).map Symbol.qualified := by
  have hholder : ∀ {p : Project}, p.units.get? scope.uri = none →
      ((p.bind tree scope).1.store.byShortName? n).map Symbol.qualified =
        ((p.session tree scope).store.byShortName? n).map Symbol.qualified := by
    intro p hn
    have hc := completed_resolveFound (p.enter tree scope) ((p.enter tree scope).findable scope.uri)
    rw [bind_eq_of_new hn, Store.byShortName?, hc.names, Store.byShortName?, Option.map_bind,
      Option.map_bind]
    congr 1
    funext id
    exact Symbol.map_of_bare Symbol.qualified_bare (hc.bare id)
  rw [hholder hn, hholder hn', (h.session hf tree).names]

theorem Copies.imports (v : String) :
    v ∈ ImportGraph.neighbours (p.bind tree scope).1.graph.imports scope.uri ↔
      v ∈ ImportGraph.neighbours (q.bind tree scope).1.graph.imports scope.uri := by
  obtain ⟨bs, bs', hc, hc', hbs⟩ := (h.session hf tree).informed.bound
  rw [mem_neighbours_bind h.lists hr hn hf hc, mem_neighbours_bind h.lists' hr' hn' hf hc']
  have hdeferred : ∀ n, (∃ b ∈ bs, n ∈ b.deferred.map Deferral.name) ↔
      ∃ b ∈ bs', n ∈ b.deferred.map Deferral.name := by
    intro n
    apply exists_mem_congr hbs
    intro b b' hb
    rw [hb.2]
  have hedges : (∃ b ∈ bs, ∃ e ∈ b.symbol.edges, e.origin = .otherUnit v) ↔
      ∃ b ∈ bs', ∃ e ∈ b.symbol.edges, e.origin = .otherUnit v := by
    apply exists_mem_congr hbs
    intro b b' hb
    rw [Symbol.edges_of_orphan hb.1]
  simp only [hedges, hdeferred, h.exportedName? tree hf]

end Enter

/-- **A project in which a unit has come and gone** declares what it did. -/
theorem copies_unload_bind (hl : p.store.Lists p.roll) (hn : p.units.get? scope.uri = none)
    (tree : Tree) : p.Copies ((p.bind tree scope).1.unload scope.uri).1 := by
  have hset := settings_unload (p.bind tree scope).1 scope.uri
  have hset' := settings_bind p tree scope
  have hlists : ((p.bind tree scope).1.unload scope.uri).1.store.Lists p.roll :=
    lists_unload_bind tree hl hn
  have hc : (p.enter tree scope).Completed (p.bind tree scope).1 := by
    rw [bind_eq_of_new hn]
    exact completed_resolveFound _ _
  refine ⟨(hset.1.trans hset'.1).symm, (hset.2.trans hset'.2).symm, (roll_unload_bind hn).symm, hl,
    (roll_unload_bind hn).symm ▸ hlists, fun id => ?_, fun uri => ?_⟩
  · cases hx : p.symbol? id with
    | none =>
      have hlive := hlists.live id
      rw [← hl.live id, show p.store.symbol? id = none from hx] at hlive
      have hnone : ((p.bind tree scope).1.unload scope.uri).1.symbol? id = none :=
        Option.not_isSome_iff_eq_none.mp fun hy => by cases hlive.mp hy
      rw [hnone]
    | some x =>
      have hid : id ∉ (p.session tree scope).ids := fun hm => by
        rw [symbol?_of_mem_session hl hn hm] at hx
        cases hx
      rw [symbol?_unload, idsIn_bind hn, if_neg hid, hc.bare, symbol?_enter hl hx]
  · rw [idsIn_unload]
    split_ifs with hu
    · rw [hu, idsIn, hn]
      rfl
    · rw [hc.idsIn, idsIn_enter, if_neg hu]

/-! ## Once and twice -/

theorem bind_unload (p : Project) (tree : Tree) (scope : Scope) :
    (p.unload scope.uri).1.bind tree scope = p.bind tree scope := by
  unfold bind
  rw [unload_of_get?_eq_none (p := (p.unload scope.uri).1) get?_unload_self]

theorem get?_imports_unload {uri k : String} (hk : k ≠ uri) :
    (p.unload uri).1.graph.imports.get? k = p.graph.imports.get? k := by
  cases hu : p.units.get? uri with
  | none => rw [unload_of_get?_eq_none hu]
  | some u => rw [graph_unload hu, ImportGraph.get?_imports_forget, if_neg hk]

section Again

variable (hl : p.store.Lists p.roll) (hn : p.units.get? scope.uri = none) (hf : scope.IsFresh)
  (hs : p.IsSettled) (tree)

include hl hn hf hs

/-- The imports of other units were found when the unit was bound for the first time. -/
theorem uri_of_mem_findable_again {f : Found}
    (h : f ∈ (((p.bind tree scope).1.unload scope.uri).1.enter tree scope).findable scope.uri) :
    f.uri = scope.uri := by
  have hcopies := copies_unload_bind hl hn tree
  set q := ((p.bind tree scope).1.unload scope.uri).1 with hq
  by_contra hne
  obtain ⟨w, hw, hor, ht⟩ := waiting?_of_mem_findable h
  have hsource : w.source = scope.uri := hor.resolve_left hne
  have hwait : (p.bind tree scope).1.awaited? f.uri f.name = some scope.uri := by
    have ha : (q.enter tree scope).awaited? f.uri f.name = some scope.uri := by
      rw [awaited?, hw, Option.map_some, hsource]
    rwa [awaited?_enter hcopies.lists', if_neg hne, hq, awaited?_unload, if_neg hne] at ha
  rw [hsource, ← hcopies.exportedName? tree hf] at ht
  obtain ⟨id, hid, x, hx, hname, -⟩ := mem_of_exportedName? ht
  have hc : (p.enter tree scope).Completed (p.bind tree scope).1 := by
    rw [bind_eq_of_new hn]
    exact completed_resolveFound _ _
  have hy := hc.bare id
  rw [hx, Option.map_some, Option.map_eq_some_iff] at hy
  obtain ⟨y, hy, hbare⟩ := hy
  exact hs.bind hl tree scope f.uri f.name scope.uri hwait id (hc.idsIn _ ▸ hid) y hy
    ((Symbol.name_of_bare hbare).trans hname)

theorem get?_imports_bind_again {k : String} (hk : k ≠ scope.uri) :
    ((p.bind tree scope).1.bind tree scope).1.graph.imports.get? k =
      (p.bind tree scope).1.graph.imports.get? k := by
  have hown := fun f => uri_of_mem_findable_again (f := f) tree hl hn hf hs
  have honly := suppliesOnly_resolveFound
    (p := ((p.bind tree scope).1.unload scope.uri).1.enter tree scope) hown
  obtain ⟨sources, hg⟩ := honly.graph
  rw [bind_eq, hg, ImportGraph.get?_imports_addAll _ hk]
  change (((((p.bind tree scope).1.unload scope.uri).1.graph.forget scope.uri).addAll scope.uri
    _).imports.get? k) = _
  rw [ImportGraph.get?_imports_addAll _ hk, ImportGraph.get?_imports_forget, if_neg hk,
    get?_imports_unload hk]

end Again

end Project

namespace History

/-- **Binding a unit again** gives what it gave the first time. -/
theorem rebind_run (options : Options) {actions : List Action} (hf : ∀ a ∈ actions, a.IsFresh)
    (tree : Tree) {scope : Scope} (hs : scope.IsFresh) :
    let once := (run options actions).project.bind tree scope
    let twice := once.1.bind tree scope
    twice.2.2 = once.2.2 ∧
      List.Forall₂ (fun id id' => ∃ x y, once.1.symbol? id = some x ∧
        twice.1.symbol? id' = some y ∧ x.Repeats y) once.2.1 twice.2.1 ∧
      (∀ n, (twice.1.store.byShortName? n).map Symbol.qualified =
        (once.1.store.byShortName? n).map Symbol.qualified) ∧
      ∀ uri, twice.1.graph.importsOf uri = once.1.graph.importsOf uri ∧
        twice.1.affected uri = once.1.affected uri := by
  intro once twice
  set p := ((run options actions).project.unload scope.uri).1 with hp
  have hn : p.units.get? scope.uri = none := Project.get?_unload_self
  have hl : p.store.Lists p.roll := Project.lists_unload (lists_run options actions)
  have hr : p.Recalls fun _ => True :=
    (recalls_run options hf).forget.unload (lists_run options actions) scope.uri
  have honce : once = p.bind tree scope := (Project.bind_unload _ tree scope).symm
  set q := (once.1.unload scope.uri).1 with hq
  have htwice : twice = q.bind tree scope := (Project.bind_unload _ tree scope).symm
  have hcopies : p.Copies q := by
    rw [hq, honce]
    exact Project.copies_unload_bind hl hn tree
  have hn' : q.units.get? scope.uri = none := Project.get?_unload_self
  have hr' : q.Recalls fun _ => True := by
    rw [hq, honce]
    exact (hr.bind hl hs fun _ _ => trivial).unload (Project.lists_bind hl tree scope) scope.uri
  have himports : ∀ u v, v ∈ ImportGraph.neighbours twice.1.graph.imports u ↔
      v ∈ ImportGraph.neighbours once.1.graph.imports u := by
    intro u v
    by_cases hu : u = scope.uri
    · rw [hu, htwice, honce]
      exact (hcopies.imports tree hs hr hr' hn hn' v).symm
    · have hsame := Project.get?_imports_bind_again tree hl hn hs
        ((settled_run options actions).unload scope.uri) hu
      rw [← honce] at hsame
      rw [ImportGraph.neighbours, hsame, ImportGraph.neighbours]
  have ht : once.1.Tracks := (tracks_run options actions).bind tree scope
  have ht' : twice.1.Tracks := ht.bind tree scope
  refine ⟨?_, ?_, fun n => ?_, fun u => ⟨ImportGraph.importsOf_congr himports u, ?_⟩⟩
  · rw [htwice, honce]
    exact (hcopies.diagnostics tree hs hr hr' hn hn').symm
  · rw [htwice, honce]
    exact hcopies.symbols tree hs hr hr' hn hn'
  · rw [htwice, honce]
    exact (hcopies.names_bind tree hs hn hn' n).symm
  · rw [Project.affected, Project.affected]
    exact ImportGraph.Sound.affected_congr himports ht'.sound ht.sound u

/-- The ids are others, the symbols are the same. -/
theorem rebind_run_waitingActions :
    let once := (run {} waitingActions).project.bind suppliedTree suppliedScope
    let twice := once.1.bind suppliedTree suppliedScope
    (∀ a ∈ waitingActions, a.IsFresh) ∧ suppliedScope.IsFresh ∧
      (once.2.1, twice.2.1) = ([⟨1, 0⟩], [⟨1, 1⟩]) ∧
      List.Forall₂ (fun id id' => ∃ x y, once.1.symbol? id = some x ∧
        twice.1.symbol? id' = some y ∧ x.Repeats y) once.2.1 twice.2.1 := by
  have hs : suppliedScope.IsFresh := fun n => rfl
  have hids : (((run {} waitingActions).project.bind suppliedTree suppliedScope).2.1,
      (((run {} waitingActions).project.bind suppliedTree suppliedScope).1.bind suppliedTree
        suppliedScope).2.1) = ([⟨1, 0⟩], [⟨1, 1⟩]) := by
    rw [run_eq rfl]
    decide +kernel
  exact ⟨isFresh_waitingActions, hs, hids, (rebind_run {} isFresh_waitingActions suppliedTree hs).2.1⟩

end History

end Bindery
