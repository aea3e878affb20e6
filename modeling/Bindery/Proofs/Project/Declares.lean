import Bindery.Proofs.Project.Batch
import Bindery.Proofs.Project.EmissionGraph

/-!
# What a unit declares

The short names of a unit are declared before any of its symbols is built. Every name that is
declared at the top of the unit gets a symbol, so that a dependency inside the unit leads to a symbol
that is there.

* `Form.isTopLevel`: a top-level declaration, or a node without a name.
* `Tree.boundNames`: the names that a statement declares and gets symbols for.
* **`Context.map_name_bind`**: a statement is bound to these names.
* `Project.get?_locals_declareAll`: what a short name of the unit stands for.
* `Project.Session.Binds`: the symbols of a session.
* **`Project.exists_declared`**: the symbols of a unit, each as its statement is bound.
* `Project.exists_of_symbol?_bind`: what a unit adds to its symbols after they were bound.
* **`History.declares_run`**: the names of a unit and the dependencies between its symbols.
-/

namespace Bindery

/-- A declaration that stands at the top of a unit, or a node without a name. -/
def Form.isTopLevel : Form → Bool
  | .classLike _ _ | .enumeration _ _ _ | .function .declaration _ | .typeAlias _ _ _ _
  | .variableStatement _ _ => true
  | form => form.name = none

namespace Tree

variable {t : Tree} {statement : Slot}

/-- The names of the symbols that a statement is bound to. A name that stands at any other node is
declared, and gets no symbol. -/
def boundNames (t : Tree) (statement : Slot) : List String :=
  if (t.form? statement).all Form.isTopLevel then t.declaredNames statement else []

theorem boundNames_of_topLevel (h : ∀ form ∈ t.form? statement, form.isTopLevel = true) :
    t.boundNames statement = t.declaredNames statement :=
  if_pos ((Option.all_eq_true _ _).mpr h)

theorem boundNames_subset : t.boundNames statement ⊆ t.declaredNames statement := by
  unfold boundNames
  split_ifs
  · exact List.Subset.refl _
  · exact List.nil_subset _

end Tree

namespace Context

variable {cx : Context} {statement : Slot} {b : Bound}

/-! ## Names -/

theorem map_name_newSymbol? (kind : SymbolKind) {i : Nat} {form : Form}
    (hi : cx.tree.form? (some i) = some form) (name : Slot) (header : Header) :
    (cx.newSymbol? kind (some i) name header).map Symbol.name = cx.tree.identifier? name := by
  obtain ⟨n, hn, -⟩ := Option.map_eq_some_iff.mp hi
  have hspan : cx.tree.span? (some i) = some n.span := by rw [Tree.span?, hn]; rfl
  unfold newSymbol?
  rw [hspan]
  cases cx.tree.identifier? name <;> rfl

theorem map_name_declarePlain (kind : SymbolKind) {i : Nat} {form : Form}
    (hi : cx.tree.form? (some i) = some form) (name : Slot) (header : Header) :
    (cx.declarePlain kind i name header).map (·.1.name) = cx.tree.identifier? name := by
  rw [declarePlain, Option.map_map, ← map_name_newSymbol? kind hi name header]
  rfl

theorem map_name_declareVariable (header : Header) (d : Slot) :
    (cx.declareVariable header d).map (·.1.name) =
      (cx.tree.form? d).bind fun f => cx.tree.identifier? f.name := by
  unfold declareVariable
  cases d with
  | none => rfl
  | some i =>
    cases hi : cx.tree.form? (some i) with
    | none => rfl
    | some form => exact map_name_declarePlain .variableSymbol hi form.name header

theorem map_name_declarations :
    (cx.declarations statement).map (·.1.name) = cx.tree.boundNames statement := by
  unfold declarations Tree.boundNames Tree.declaredNames
  rcases statement with _ | i
  · rfl
  cases hi : cx.tree.form? (some i) with
  | none => rfl
  | some form =>
    have hplain : ∀ kind header,
        ((cx.declarePlain kind i form.name header).toList).map (·.1.name) =
          (cx.tree.identifier? form.name).toList := by
      intro kind header
      rw [← Option.toList_map, map_name_declarePlain kind hi]
    have hnone : [] = if decide (form.name = none) = true then
        (cx.tree.identifier? form.name).toList else [] := by
      cases form.name <;> rfl
    cases form with
    | classLike kind parts =>
      show ((cx.declareClass kind i parts).toList).map _ = (cx.tree.identifier? parts.name).toList
      rw [← Option.toList_map, declareClass, Option.map_map,
        ← map_name_newSymbol? (classSymbolKind kind) hi parts.name parts.header]
      rfl
    | enumeration header name _ => exact hplain .enumeration header
    | function kind f =>
      cases kind with
      | declaration => exact hplain .function f.header
      | _ => exact hnone
    | typeAlias header name _ _ => exact hplain .typeAlias header
    | variableStatement header declarations =>
      dsimp only
      rw [List.map_filterMap]
      apply List.filterMap_congr
      exact fun d _ => map_name_declareVariable header d
    | _ => exact hnone

/-- **A statement is bound to the names that it declares**, if they stand at the top of the unit. -/
theorem map_name_bind :
    (cx.bind statement).1.map (·.symbol.name) = cx.tree.boundNames statement := by
  rw [← map_name_declarations]
  symm
  rw [← List.forall₂_eq_eq_eq, List.forall₂_map_left_iff, List.forall₂_map_right_iff]
  exact (forall₂_bind statement).imp fun d b hb => (Symbol.name_of_bare hb.bare).symm

theorem qualified_of_mem_declarations {d : Symbol × List Reference}
    (h : d ∈ cx.declarations statement) : d.1.qualified = cx.scope.qualify d.1.name := by
  obtain ⟨_, _, _, _, s, hs, he⟩ := newSymbol?_of_mem_declarations h
  obtain ⟨_, _, _, _, rfl⟩ := exists_of_newSymbol? hs
  rw [he]

theorem qualified_of_mem_bind (h : b ∈ (cx.bind statement).1) :
    b.symbol.qualified = cx.scope.qualify b.symbol.name := by
  obtain ⟨d, hd, hb⟩ := exists_of_mem_bind h
  rw [Symbol.qualified_of_bare hb.bare, Symbol.name_of_bare hb.bare,
    qualified_of_mem_declarations hd]

theorem exists_local_of_mem_edges (h : b ∈ (cx.bind statement).1) {e : Dependency}
    (he : e ∈ b.symbol.edges) (ho : e.origin = .sameUnit) :
    ∃ n, cx.scope.locals.get? n = some e.target := by
  obtain ⟨d, -, hb⟩ := exists_of_mem_bind h
  obtain ⟨r, -, hm, -, -⟩ := IsBoundAs.mem_edges hb he
  rw [ho] at hm
  refine ⟨r.name, ?_⟩
  rcases meaning_of_target? hm with ⟨hm, -⟩ | ⟨_, -, ho⟩ | ⟨-, ⟨-, ho⟩ | ⟨-, ho⟩ | ⟨_, -, ho⟩⟩
  · unfold Scope.meaning at hm
    split at hm
    · cases hm
    · split at hm
      · next target hl =>
        cases hm
        exact hl
      · split at hm
        · cases hm
        · split at hm
          · cases hm
          · split at hm <;> cases hm
  all_goals cases ho

end Context

namespace Project

variable {p : Project} {tree : Tree} {scope : Scope}

/-- **What a short name of the unit stands for**: its qualified name. -/
theorem get?_locals_declareAll (tree : Tree) (s : Scope) (n : String) :
    (declareAll tree s).locals.get? n =
      if n ∈ tree.statements.flatMap tree.declaredNames then some (s.qualify n)
      else s.locals.get? n := by
  unfold declareAll
  induction tree.statements.flatMap tree.declaredNames generalizing s with
  | nil => rfl
  | cons m ns ih =>
    rw [List.foldl_cons, ih]
    have hq : (s.addLocal m (s.qualify m)).qualify n = s.qualify n := rfl
    have hl : (s.addLocal m (s.qualify m)).locals.get? n =
        if n = m then some (s.qualify m) else s.locals.get? n := Table.get?_insert _ _ _ _
    rw [hq, hl]
    by_cases hn : n ∈ ns
    · simp [hn]
    · by_cases hm : n = m
      · simp [hm]
      · simp [hn, hm]

/-! ## Sessions -/

/-- **The symbols of a session** are those that were bound, in order. -/
def Session.Binds (s : Session) (bs : List Bound) : Prop :=
  List.Forall₂ (fun id b => s.store.symbol? id = some b.symbol) s.ids bs

section Session

variable {store : Store} {roll : List Listing} {s : Session} {bs : List Bound}

theorem Session.Binds.take (h : s.Binds bs) (hs : s.Extends store roll scope) (b : Bound) :
    (s.take b).Binds (bs ++ [b]) := by
  have hfresh := hs.lists.symbol?_enroll_fresh b.symbol !s.scope.isLibrary
  rw [Binds, s.ids_take, s.store_take]
  refine List.rel_append (h.imp fun id c hc => ?_) (.cons ?_ .nil)
  · have hne : id ≠ (s.store.enroll b.symbol !s.scope.isLibrary).2.1 := by
      rintro rfl
      rw [hfresh] at hc
      cases hc
    rw [hs.lists.get?_enroll, if_neg hne, hc]
  · rw [hs.lists.get?_enroll, if_pos rfl]

theorem Session.Binds.takeAll (h : s.Binds bs) (hs : s.Extends store roll scope) {cs : List Bound}
    (hc : ∀ c ∈ cs, c.symbol.uri = scope.uri) : (cs.foldl Session.take s).Binds (bs ++ cs) := by
  induction cs generalizing s bs with
  | nil => rwa [List.append_nil]
  | cons c cs ih =>
    rw [List.forall_mem_cons] at hc
    rw [List.append_cons]
    exact ih (h.take hs c) (hs.take hc.1) hc.2

theorem Session.Binds.bindStatement (h : s.Binds bs) (hs : s.Extends store roll scope)
    (options : Options) (statement : Slot) : (s.bindStatement tree options statement).Binds
      (bs ++ ((s.context tree options).bind statement).1) := by
  have h' : ({ s with diagnostics := s.diagnostics ++
      ((s.context tree options).bind statement).2 } : Session).Binds bs := h
  refine h'.takeAll ⟨hs.scope, hs.lists, hs.old⟩ fun b hb => ?_
  exact (Context.uri_of_mem_bind hb).trans (Scope.uri_of_drained hs.scope)

end Session

/-- What is known when the statements `before` of a unit have been bound. -/
def contextAfter (p : Project) (tree : Tree) (scope : Scope) (before : List Slot) : Context :=
  (before.foldl (Session.bindStatement tree p.options)
    { store := p.store, scope := p.unitScope tree scope }).context tree p.options

theorem isOf_contextAfter (hl : p.store.Lists p.roll) (tree : Tree) (scope : Scope)
    (before : List Slot) :
    (p.contextAfter tree scope before).IsOf tree p.options (p.unitScope tree scope) :=
  ⟨rfl, rfl, ((Session.extends_start hl _).bindAll tree p.options before).scope⟩

/-- The symbols of a unit as they are bound: each when the statements before its own have been
bound, and with all the names that get symbols. -/
structure Declared (p : Project) (tree : Tree) (scope : Scope) (bs : List Bound) : Prop where
  binds : (p.session tree scope).Binds bs
  carries : scope.IsFresh → (p.session tree scope).Carries bs
  context : ∀ b, b ∈ bs ↔ ∃ before statement after, tree.statements = before ++ statement :: after ∧
    b ∈ ((p.contextAfter tree scope before).bind statement).1
  names : bs.map (·.symbol.name) = tree.statements.flatMap tree.boundNames

/-- **Every unit is bound to the names that get symbols.** -/
theorem exists_declared (hl : p.store.Lists p.roll) (tree : Tree) (scope : Scope) :
    ∃ bs, p.Declared tree scope bs := by
  -- One statement after the other.
  have hall : ∀ statements : List Slot, ∃ bs : List Bound,
      (statements.foldl (Session.bindStatement tree p.options)
        { store := p.store, scope := p.unitScope tree scope }).Binds bs ∧
      (scope.IsFresh → (statements.foldl (Session.bindStatement tree p.options)
        { store := p.store, scope := p.unitScope tree scope }).Carries bs) ∧
      (∀ b, b ∈ bs ↔ ∃ before statement after, statements = before ++ statement :: after ∧
        b ∈ ((p.contextAfter tree scope before).bind statement).1) ∧
      bs.map (·.symbol.name) = statements.flatMap tree.boundNames := by
    intro statements
    induction statements using List.reverseRecOn with
    | nil => exact ⟨[], .nil, fun hf => Session.carries_start hf p tree, by simp, rfl⟩
    | append_singleton statements statement ih =>
      obtain ⟨bs, hbinds, hcarries, hcontext, hnames⟩ := ih
      have hs := (Session.extends_start hl (p.unitScope tree scope)).bindAll tree p.options statements
      refine ⟨bs ++ ((p.contextAfter tree scope statements).bind statement).1, ?binds, ?carries,
        fun b => ?context, ?names⟩
      case binds =>
        rw [List.foldl_append]
        exact hbinds.bindStatement hs p.options statement
      case carries =>
        rw [List.foldl_append]
        exact fun hf => (hcarries hf).bindStatement hs tree p.options statement
      case context =>
        rw [List.mem_append, hcontext]
        constructor
        · rintro (⟨before, statement', after, rfl, hm⟩ | hm)
          · exact ⟨before, statement', after ++ [statement], by simp, hm⟩
          · exact ⟨statements, statement, [], rfl, hm⟩
        · rintro ⟨before, statement', after, he, hm⟩
          rcases after.eq_nil_or_concat with rfl | ⟨after, last, rfl⟩
          · obtain ⟨rfl, hlast⟩ := List.append_inj' he rfl
            cases hlast
            exact .inr hm
          · rw [List.concat_eq_append, ← List.cons_append, ← List.append_assoc] at he
            exact .inl ⟨before, statement', after, (List.append_inj' he rfl).1, hm⟩
      case names =>
        rw [List.map_append, List.flatMap_append, hnames, Context.map_name_bind,
          List.flatMap_singleton]
        rfl
  obtain ⟨bs, hbinds, hcarries, hcontext, hnames⟩ := hall tree.statements
  exact ⟨bs, hbinds, hcarries, hcontext, hnames⟩

/-! ## Units -/

theorem exists_of_symbol?_bind (p : Project) (tree : Tree) (scope : Scope) (id : SymbolId) :
    ∃ late,
    (p.bind tree scope).1.symbol? id =
      (((p.unload scope.uri).1.enter tree scope).symbol? id).map (·.learnAll late) := by
  rw [bind_eq, symbol?_resolveFound _ (pairwise_findable _ _)]
  exact ⟨_, rfl⟩

/-- **The symbols of a unit** once it is bound: what was declared, and imports that were found. -/
theorem Declared.symbols {bs : List Bound}
    (h : (p.unload scope.uri).1.Declared tree scope bs) :
    List.Forall₂ (fun id b => ∃ late, (p.bind tree scope).1.symbol? id =
      some (b.symbol.learnAll late)) (p.bind tree scope).2.1 bs := by
  rw [ids_bind]
  refine h.binds.imp fun id b hb => ?_
  obtain ⟨late, hlate⟩ := exists_of_symbol?_bind p tree scope id
  have hx : ((p.unload scope.uri).1.enter tree scope).symbol? id = some b.symbol := hb
  exact ⟨late, by rw [hlate, hx, Option.map_some]⟩

theorem Declared.names_of_topLevel {bs : List Bound} (h : p.Declared tree scope bs)
    (htop : ∀ statement ∈ tree.statements, ∀ form ∈ tree.form? statement, form.isTopLevel = true) :
    bs.map (·.symbol.name) = tree.statements.flatMap tree.declaredNames :=
  h.names.trans (List.flatMap_congr fun statement hs => Tree.boundNames_of_topLevel (htop statement hs))

theorem map_name_bind (hl : p.store.Lists p.roll)
    (htop : ∀ statement ∈ tree.statements, ∀ form ∈ tree.form? statement, form.isTopLevel = true) :
    (p.bind tree scope).2.1.map (fun id => ((p.bind tree scope).1.symbol? id).map Symbol.name) =
      (tree.statements.flatMap tree.declaredNames).map some := by
  obtain ⟨bs, hbs⟩ := exists_declared (lists_unload hl) tree scope
  rw [← hbs.names_of_topLevel htop, List.map_map, ← List.forall₂_eq_eq_eq, List.forall₂_map_left_iff,
    List.forall₂_map_right_iff]
  refine hbs.symbols.imp fun id b ⟨late, hx⟩ => ?_
  rw [hx, Option.map_some, Symbol.name_of_bare (Symbol.bare_learnAll _ _)]
  rfl

/-- **A dependency inside the unit** leads to one of its symbols, if nothing else was declared. -/
theorem exists_of_sameUnit (hl : p.store.Lists p.roll) (hlocals : scope.locals = {})
    (htop : ∀ statement ∈ tree.statements, ∀ form ∈ tree.form? statement, form.isTopLevel = true)
    {id : SymbolId} (hid : id ∈ (p.bind tree scope).2.1) {x : Symbol}
    (hx : (p.bind tree scope).1.symbol? id = some x) {e : Dependency} (he : e ∈ x.edges)
    (ho : e.origin = .sameUnit) : ∃ k ∈ (p.bind tree scope).2.1, ∃ y,
      (p.bind tree scope).1.symbol? k = some y ∧ y.qualified = e.target := by
  have hl₀ : (p.unload scope.uri).1.store.Lists _ := lists_unload hl
  obtain ⟨bs, hbs⟩ := exists_declared hl₀ tree scope
  -- The dependency was there from the start, so it is what a local name stands for.
  obtain ⟨b, hb, late, hlate⟩ := exists_partner hbs.symbols hid
  rw [hx, Option.some.injEq] at hlate
  rw [hlate] at he
  have hold : e ∈ b.symbol.edges := by
    rcases Symbol.mem_edges_learnAll he with he | ⟨l, -, rfl, -⟩
    · exact he
    · cases ho
  obtain ⟨before, _, _, -, hm⟩ := (hbs.context b).mp hb
  obtain ⟨n, hn⟩ := Context.exists_local_of_mem_edges hm hold ho
  rw [Scope.locals_of_drained (isOf_contextAfter hl₀ tree scope before).scope, unitScope,
    get?_locals_declareAll] at hn
  split_ifs at hn with hmem
  · -- The symbol of that name is the target.
    rw [Option.some.injEq] at hn
    rw [← hbs.names_of_topLevel htop] at hmem
    obtain ⟨c, hc, rfl⟩ := List.mem_map.mp hmem
    obtain ⟨k, hk, late', hlate'⟩ := exists_partner' hbs.symbols hc
    obtain ⟨before', _, _, -, hm'⟩ := (hbs.context c).mp hc
    refine ⟨k, hk, _, hlate', ?_⟩
    have hcx := isOf_contextAfter hl₀ tree scope before'
    rw [Symbol.qualified_of_bare (Symbol.bare_learnAll _ _), Context.qualified_of_mem_bind hm',
      ← hn, Scope.qualify, Scope.path_of_drained hcx.scope, unitScope, declareAll_eq]
    rfl
  · rw [hlocals] at hn
    cases hn

theorem mem_targets_of_mem_edges (hl : p.store.Lists p.roll) {id k : SymbolId} {x y : Symbol}
    (hx : p.symbol? id = some x) (hy : p.symbol? k = some y) {e : Dependency} (he : e ∈ internalEdges x)
    (ht : y.qualified = e.target) (hne : e.target ≠ x.qualified) :
    e.target ∈ p.emissionGraph.targets x.qualified ∧
      (e.strong = true → e.target ∈ p.emissionGraph.strongTargets x.qualified) := by
  have hxs : x ∈ p.allSymbols := (mem_allSymbols hl).mpr ⟨id, hx⟩
  have hnames : e.target ∈ p.emissionGraph.names :=
    mem_names_emissionGraph.mpr ⟨y, (mem_allSymbols hl).mpr ⟨k, hy⟩, ht⟩
  refine ⟨mem_targets_emissionGraph hxs he hnames hne.symm, fun hs => ?_⟩
  exact mem_strongTargets_emissionGraph.mpr ⟨hne.symm, hnames, x, hxs, rfl, e, he, rfl, hs⟩

end Project

namespace History

/-- **The names of a unit and the dependencies between its symbols.** Whatever has been done before,
a unit is bound to symbols with the names that its statements declare, in order; and a dependency
inside the unit leads to one of these symbols and is kept in the order of emission. -/
theorem declares_run (options : Options) (actions : List Action) (tree : Tree) (scope : Scope)
    (hlocals : scope.locals = {})
    (htop : ∀ statement ∈ tree.statements, ∀ form ∈ tree.form? statement, form.isTopLevel = true) :
    let bound := (run options actions).project.bind tree scope
    let p := bound.1
    let ids := bound.2.1
    ids.map (fun id => (p.symbol? id).map Symbol.name) =
        (tree.statements.flatMap tree.declaredNames).map some ∧
      ∀ id ∈ ids, ∀ x, p.symbol? id = some x → ∀ e ∈ x.edges, e.origin = .sameUnit →
        (∃ k ∈ ids, ∃ y, p.symbol? k = some y ∧ y.qualified = e.target) ∧
          (e.target ≠ x.qualified → e.target ∈ p.emissionGraph.targets x.qualified ∧
            (e.strong = true → e.target ∈ p.emissionGraph.strongTargets x.qualified)) := by
  intro bound p ids
  have hl := lists_run options actions
  refine ⟨Project.map_name_bind hl htop, fun id hid x hx e he ho => ?_⟩
  obtain ⟨k, hk, y, hy, ht⟩ := Project.exists_of_sameUnit hl hlocals htop hid hx he ho
  refine ⟨⟨k, hk, y, hy, ht⟩, fun hne => ?_⟩
  refine Project.mem_targets_of_mem_edges (Project.lists_bind hl tree scope) hx hy ?_ ht hne
  exact List.mem_filter.mpr ⟨he, by rw [ho]⟩

/-- A function that takes an instance of a class that is declared after it. -/
def forwardTree : Tree :=
  Tree.link
    { file := "u.avt"
      source := "function f(a: A) \x7b\x7d\nclass A \x7b\x7d"
      nodes := #[⟨.identifier "f", ⟨9, 10⟩, none⟩, ⟨.identifier "a", ⟨11, 12⟩, none⟩,
        ⟨.identifier "A", ⟨14, 15⟩, none⟩, ⟨.typeReference (some 2) [], ⟨14, 15⟩, none⟩,
        ⟨.field .parameter {} { name := some 1, annotation := some 3 }, ⟨11, 15⟩, none⟩,
        ⟨.block [], ⟨17, 19⟩, none⟩,
        ⟨.function .declaration { name := some 0, parameters := [some 4], body := some 5 },
          ⟨0, 19⟩, none⟩,
        ⟨.identifier "A", ⟨26, 27⟩, none⟩,
        ⟨.classLike .classDeclaration { name := some 7 }, ⟨20, 30⟩, none⟩,
        ⟨.sourceFile [some 6, some 8], ⟨0, 30⟩, none⟩] } 9

/-- The function is bound before the class, and depends on it. -/
theorem declares_run_forwardTree :
    let scope : Scope := { uri := "u.avt", path := ["app"] }
    let bound := (run {} []).project.bind forwardTree scope
    let p := bound.1
    scope.locals = {} ∧
      (∀ statement ∈ forwardTree.statements, ∀ form ∈ forwardTree.form? statement,
        form.isTopLevel = true) ∧
      bound.2.1 = [⟨0, 0⟩, ⟨1, 0⟩] ∧
      bound.2.1.map (fun id => (p.symbol? id).map Symbol.name) = [some "f", some "A"] ∧
      (p.symbol? ⟨0, 0⟩).map Symbol.edges = some [⟨"app.A", .sameUnit, false⟩] ∧
      "app.A" ∈ p.emissionGraph.targets "app.f" := by
  dsimp only
  have htop : ∀ statement ∈ forwardTree.statements, ∀ form ∈ forwardTree.form? statement,
      form.isTopLevel = true := by decide +kernel
  have hids : ((run {} []).project.bind forwardTree { uri := "u.avt", path := ["app"] }).2.1 =
      [⟨0, 0⟩, ⟨1, 0⟩] := by
    rw [run_eq rfl]
    decide +kernel
  have hf : (((run {} []).project.bind forwardTree { uri := "u.avt", path := ["app"] }).1.symbol?
      ⟨0, 0⟩).map (fun x => (x.qualified, x.edges)) =
        some ("app.f", [⟨"app.A", .sameUnit, false⟩]) := by
    rw [run_eq rfl]
    decide +kernel
  obtain ⟨hnames, hedges⟩ := declares_run {} [] forwardTree { uri := "u.avt", path := ["app"] } rfl
    htop
  obtain ⟨x, hx, hxe⟩ := Option.map_eq_some_iff.mp hf
  obtain ⟨hq, he⟩ := Prod.mk.inj hxe
  obtain ⟨-, hkept⟩ := hedges ⟨0, 0⟩ (by rw [hids]; exact List.mem_cons_self) x hx
    ⟨"app.A", .sameUnit, false⟩ (by rw [he]; exact List.mem_cons_self) rfl
  refine ⟨rfl, htop, hids, hnames.trans (by decide +kernel), ?_, ?_⟩
  · rw [hx, Option.map_some, he]
  · rw [← hq]
    exact (hkept (by rw [hq]; decide)).1

end History

end Bindery
