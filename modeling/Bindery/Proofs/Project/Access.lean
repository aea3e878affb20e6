import Bindery.Proofs.Binding.Access
import Bindery.Proofs.Project.Declares

/-!
# Member accesses of a unit

* **`History.records_run`**: the symbols of a source unit know where the objects of their accesses
  stand.
* `History.records_run_chainTree`, `History.hides_run_chainTree`: accesses in a class, those that are
  found and those that type arguments and heritage clauses hide.
-/

namespace Bindery

namespace History

theorem isBuiltin_this_run (options : Options) (actions : List Action) :
    "this" ∈ (run options actions).project.builtins := by
  rw [(settings_run options actions).2, Options.allBuiltins, Builtins.mem_withNames]
  exact .inl (by decide)

/-- **The objects of accesses are recorded.** Whatever has been done before, every symbol of a source
unit is declared at a node of one of the statements. Where an access is met below a root of it, behind
nothing that is read as a whole, and its object is a name that the unit declares or imports, the place
of the object is among the places of that name. -/
theorem records_run (options : Options) (actions : List Action) (tree : Tree) {scope : Scope}
    (hsource : scope.isLibrary = false) :
    let p := (run options actions).project
    let bound := p.bind tree scope
    ∀ id ∈ bound.2.1, ∃ x, bound.1.symbol? id = some x ∧
      ∃ before statement after i, tree.statements = before ++ statement :: after ∧
        some i ∈ tree.declarationNodes statement ∧
        tree.declaredName? (some i) = some x.name ∧ tree.span? (some i) = some x.span ∧
        ∀ root ∈ tree.textRoots statement i,
          ∀ a, tree.Meets Form.isOpen (Context.maxWalkDepth + 1) root a →
            ∀ n s, ((p.unload scope.uri).1.contextAfter tree scope before).Accesses a n s →
              n ≠ x.qualified → ∃ m, x.mentions? n = some m ∧ s ∈ m.locations := by
  intro p bound id hid
  have hl : (p.unload scope.uri).1.store.Lists _ := Project.lists_unload (lists_run options actions)
  obtain ⟨bs, hbs⟩ := Project.exists_declared hl tree scope
  obtain ⟨b, hb, late, hx⟩ := exists_partner hbs.symbols hid
  obtain ⟨before, statement, after, hst, hm⟩ := (hbs.context b).mp hb
  have hcx := Project.isOf_contextAfter hl tree scope before
  have hlib : ((p.unload scope.uri).1.contextAfter tree scope before).scope.isLibrary = false := by
    rw [Scope.isLibrary_of_drained hcx.scope, Project.unitScope, Project.declareAll_eq]
    exact hsource
  have hthis :
      ((p.unload scope.uri).1.contextAfter tree scope before).scope.isBuiltin "this" = true := by
    rw [Scope.isBuiltin, decide_eq_true_iff, Scope.builtins_of_drained hcx.scope, Project.unitScope,
      Project.declareAll_eq, (Project.settings_unload _ _).2]
    exact isBuiltin_this_run options actions
  obtain ⟨i, hnode, hname, hspan, hrecords⟩ := Context.records_of_mem_bind hlib hthis hm
  have hbare : (b.symbol.learnAll late).bare = b.symbol.bare := Symbol.bare_learnAll _ _
  refine ⟨_, hx, before, statement, after, i, hst, hnode, ?_, ?_, fun root hroot a ha n s hn hne => ?_⟩
  · rw [Symbol.name_of_bare hbare]
    exact hname
  · rw [Symbol.span_of_bare hbare]
    exact hspan
  · rw [Symbol.qualified_of_bare hbare] at hne
    obtain ⟨m, hm, hs⟩ := hrecords root hroot a ha n s hn hne
    -- What is found later is written at the places that are there.
    refine ⟨{ m with replacement := (LateImport.answer? late n).or m.replacement }, ?_, hs⟩
    rw [Symbol.mentions?, Symbol.get?_table_learnAll, show b.symbol.table.get? n = some m from hm]
    rfl

/-- `class C extends Foo.Base { p: Box<typeof Foo.k>; m() { Foo.make<X>(); Foo.run() } }`. -/
def chainTree : Tree :=
  Tree.link
    { file := "u.avt"
      source := "class C extends Foo.Base \x7b p: Box<typeof Foo.k>; m() " ++
        "\x7b Foo.make<X>(); Foo.run() \x7d \x7d"
      nodes := #[⟨.identifier "C", ⟨6, 7⟩, none⟩, ⟨.identifier "Foo", ⟨16, 19⟩, none⟩,
        ⟨.identifier "Base", ⟨20, 24⟩, none⟩, ⟨.access (some 1) (some 2), ⟨16, 24⟩, none⟩,
        ⟨.instantiation (some 3) [], ⟨16, 24⟩, none⟩, ⟨.heritage .extending [some 4], ⟨8, 24⟩, none⟩,
        ⟨.identifier "p", ⟨27, 28⟩, none⟩, ⟨.identifier "Box", ⟨30, 33⟩, none⟩,
        ⟨.identifier "Foo", ⟨41, 44⟩, none⟩, ⟨.identifier "k", ⟨45, 46⟩, none⟩,
        ⟨.access (some 8) (some 9), ⟨41, 46⟩, none⟩, ⟨.typeQuery (some 10), ⟨34, 46⟩, none⟩,
        ⟨.typeReference (some 7) [some 11], ⟨30, 47⟩, none⟩,
        ⟨.field .property {} { name := some 6, annotation := some 12 }, ⟨27, 48⟩, none⟩,
        ⟨.identifier "m", ⟨49, 50⟩, none⟩, ⟨.identifier "Foo", ⟨55, 58⟩, none⟩,
        ⟨.identifier "make", ⟨59, 63⟩, none⟩, ⟨.access (some 15) (some 16), ⟨55, 63⟩, none⟩,
        ⟨.identifier "X", ⟨64, 65⟩, none⟩, ⟨.typeReference (some 18) [], ⟨64, 65⟩, none⟩,
        ⟨.instantiation (some 17) [some 19], ⟨55, 66⟩, none⟩,
        ⟨.call .plain (some 20) [] [], ⟨55, 68⟩, none⟩,
        ⟨.wrapper .expressionStatement (some 21), ⟨55, 69⟩, none⟩,
        ⟨.identifier "Foo", ⟨70, 73⟩, none⟩, ⟨.identifier "run", ⟨74, 77⟩, none⟩,
        ⟨.access (some 23) (some 24), ⟨70, 77⟩, none⟩, ⟨.call .plain (some 25) [] [], ⟨70, 79⟩, none⟩,
        ⟨.wrapper .expressionStatement (some 26), ⟨70, 79⟩, none⟩,
        ⟨.block [some 22, some 27], ⟨53, 81⟩, none⟩,
        ⟨.function .method { name := some 14, body := some 28 }, ⟨49, 81⟩, none⟩,
        ⟨.classLike .classDeclaration
          { name := some 0, heritage := [some 5], members := [some 13, some 29] }, ⟨0, 83⟩, none⟩,
        ⟨.sourceFile [some 30], ⟨0, 83⟩, none⟩] } 31

/-- The object of all accesses is imported. -/
def chainScope : Scope :=
  ({ uri := "u.avt", path := ["app"] } : Scope).addImport "Foo" "lib.Foo" "lib.avt"

/-- What is known when the class is bound on its own. -/
def chainContext : Context :=
  ((run {} []).project.unload chainScope.uri).1.contextAfter chainTree chainScope []

theorem accesses_chainContext (a object member : Nat) {s : Span}
    (ha : chainTree.form? (some a) = some (.access (some object) (some member)))
    (ho : chainTree.form? (some object) = some (.identifier "Foo"))
    (hs : chainTree.span? (some object) = some s)
    (ht : Text.sliceString? chainTree.source s = some "Foo") (hne : ¬s.IsEmpty) :
    chainContext.Accesses a "Foo" s where
  access := ⟨some object, some member, ha, ho, hs, fun x hx => by cases hx⟩
  text := ht
  nonempty := hne
  unqualified := by decide
  plain := by decide
  bound := .inr (by rw [chainContext, run_eq rfl]; decide +kernel)
  free := by rw [chainContext, run_eq rfl]; decide +kernel
  ordinary := by decide

/-- The access that stands on its own is found. -/
theorem records_run_chainTree :
    let bound := (run {} []).project.bind chainTree chainScope
    chainScope.isLibrary = false ∧ bound.2.1 = [⟨0, 0⟩] ∧
      ∃ x, bound.1.symbol? ⟨0, 0⟩ = some x ∧
        ∃ m, x.mentions? "Foo" = some m ∧ ⟨70, 73⟩ ∈ m.locations := by
  dsimp only
  have hids : ((run {} []).project.bind chainTree chainScope).2.1 = [⟨0, 0⟩] := by
    rw [run_eq rfl]
    decide +kernel
  obtain ⟨x, hx, before, statement, after, i, hst, hnode, -, -, hrecords⟩ :=
    records_run {} [] chainTree (show chainScope.isLibrary = false from rfl) ⟨0, 0⟩
      (by rw [hids]; exact List.mem_cons_self)
  have hq : (((run {} []).project.bind chainTree chainScope).1.symbol? ⟨0, 0⟩).map
      Symbol.qualified = some "app.C" := by
    rw [run_eq rfl]
    decide +kernel
  rw [hx, Option.map_some, Option.some.injEq] at hq
  -- There is one statement, and it is its own declaration.
  have hstatements : chainTree.statements = [some 30] := by decide +kernel
  rw [hstatements] at hst
  obtain ⟨rfl, rfl, rfl⟩ : before = [] ∧ statement = some 30 ∧ after = [] := by
    rcases before with _ | ⟨_, _ | _⟩ <;> simp_all
  have hself : chainTree.declarationNodes (some 30) = [some 30] := by decide +kernel
  rw [hself, List.mem_singleton, Option.some.injEq] at hnode
  subst hnode
  have haccess : chainContext.Accesses 25 "Foo" ⟨70, 73⟩ :=
    accesses_chainContext 25 23 24 (by decide +kernel) (by decide +kernel)
      (by decide +kernel) (by decide +kernel) (by decide)
  refine ⟨rfl, hids, x, hx, hrecords 29 (by decide +kernel) 25 ?_ "Foo" _ haccess (by rw [hq]; decide)⟩
  exact .deeper (c := 28) (by decide +kernel) (by decide +kernel) <|
    .deeper (c := 27) (by decide +kernel) (by decide +kernel) <|
      .deeper (c := 26) (by decide +kernel) (by decide +kernel) <| .child (by decide +kernel)

/-- The callee with type arguments, the type argument and the heritage type are read as a whole, so
that the places of their objects are not recorded. -/
theorem hides_run_chainTree :
    let anywhere : Form → Bool := fun _ => true
    ((List.range chainTree.size).flatMap fun i => chainTree.children (some i)).Nodup ∧
      (29 ∈ chainTree.textRoots (some 30) 30 ∧
        chainTree.Meets anywhere (Context.maxWalkDepth + 1) 29 17 ∧
        chainContext.Accesses 17 "Foo" ⟨55, 58⟩) ∧
      (13 ∈ chainTree.textRoots (some 30) 30 ∧
        chainTree.Meets anywhere (Context.maxWalkDepth + 1) 13 10 ∧
        chainContext.Accesses 10 "Foo" ⟨41, 44⟩) ∧
      (chainTree.Meets anywhere (Context.maxWalkDepth + 1) 30 3 ∧
        chainContext.Accesses 3 "Foo" ⟨16, 19⟩) ∧
      (((run {} []).project.bind chainTree chainScope).1.symbol? ⟨0, 0⟩).map
        (fun x => (x.qualified, (x.mentions? "Foo").map (·.locations.toList))) =
          some ("app.C", some [⟨70, 73⟩]) := by
  intro anywhere
  have hany : ∀ i, ∀ form ∈ chainTree.form? i, anywhere form = true := fun _ _ _ => rfl
  refine ⟨by decide +kernel, ⟨by decide +kernel, ?_, ?_⟩, ⟨by decide +kernel, ?_, ?_⟩, ⟨?_, ?_⟩, ?_⟩
  · exact .deeper (c := 28) (by decide +kernel) (hany _) <|
      .deeper (c := 22) (by decide +kernel) (hany _) <|
        .deeper (c := 21) (by decide +kernel) (hany _) <|
          .deeper (c := 20) (by decide +kernel) (hany _) <| .child (by decide +kernel)
  · exact accesses_chainContext 17 15 16 (by decide +kernel) (by decide +kernel)
      (by decide +kernel) (by decide +kernel) (by decide)
  · exact .deeper (c := 12) (by decide +kernel) (hany _) <|
      .deeper (c := 11) (by decide +kernel) (hany _) <| .child (by decide +kernel)
  · exact accesses_chainContext 10 8 9 (by decide +kernel) (by decide +kernel)
      (by decide +kernel) (by decide +kernel) (by decide)
  · exact .deeper (c := 5) (by decide +kernel) (hany _) <|
      .deeper (c := 4) (by decide +kernel) (hany _) <| .child (by decide +kernel)
  · exact accesses_chainContext 3 1 2 (by decide +kernel) (by decide +kernel)
      (by decide +kernel) (by decide +kernel) (by decide)
  · rw [run_eq rfl]
    decide +kernel

end History

end Bindery
