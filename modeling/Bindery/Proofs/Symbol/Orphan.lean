import Bindery.Binding.Declaration
import Bindery.Symbol.Render
import Bindery.Proofs.Symbol.Late

/-!
# Symbols apart from the symbol of their base

A class remembers the id of its base. Ids depend on what was bound before; nothing that is written
or depended on does.

* `ClassInfo.orphan`, `Symbol.orphan`: a class apart from the symbol of its base.
* `Symbol.owners_of_orphan`, `Symbol.compiled_of_orphan`: what does not depend on that symbol.
* **`Symbol.orphan_learnAll`**: neither does what late imports make of the rest.
* `Symbol.classless`, `Symbol.classless_learnAll`: a symbol apart from all data of its class.
-/

namespace Bindery

/-- A class apart from the symbol of its base. -/
def ClassInfo.orphan (c : ClassInfo) : ClassInfo := { c with parent := none }

/-- A late import apart from the symbol that was found. -/
def LateImport.orphan (l : LateImport) : LateImport := { l with parent := none }

namespace Symbol

/-- A symbol apart from the symbol of its base. -/
def orphan (s : Symbol) : Symbol := s.updateClass ClassInfo.orphan

@[simp] theorem bare_orphan (s : Symbol) : s.orphan.bare = s.bare := bare_updateClass s _

variable {x y : Symbol}

theorem orphan_congr (h : x = { y with classInfo := x.classInfo })
    (hi : x.classInfo.map ClassInfo.orphan = y.classInfo.map ClassInfo.orphan) :
    x.orphan = y.orphan := by
  rw [h, orphan, updateClass, hi]
  rfl

section Share

variable (h : x.orphan = y.orphan)

include h

theorem bare_of_orphan : x.bare = y.bare := by
  rw [← bare_orphan, h, bare_orphan]

theorem table_of_orphan : x.table = y.table := (congrArg table h :)

theorem edges_of_orphan : x.edges = y.edges := (congrArg edges h :)

theorem map_orphan_of_orphan :
    x.classInfo.map ClassInfo.orphan = y.classInfo.map ClassInfo.orphan :=
  (congrArg classInfo h :)

end Share

/-! ## Rendering -/

section Render

variable (hi : x.classInfo.map ClassInfo.orphan = y.classInfo.map ClassInfo.orphan)

include hi

/-- What a class declares besides does not depend on the symbol of its base. -/
theorem map_classInfo_of_orphan {α : Type} {f : ClassInfo → α} (hf : ∀ c, f c.orphan = f c) :
    x.classInfo.map f = y.classInfo.map f := by
  have hmap : ∀ c : Option ClassInfo, c.map f = (c.map ClassInfo.orphan).map f := by
    intro c
    rw [Option.map_map, show f ∘ ClassInfo.orphan = f from funext hf]
  rw [hmap, hi, ← hmap]

/-- What is written depends on the text, the replacements of names, and the modifiers. -/
theorem render_congr (hs : x.span = y.span) (hc : x.content = y.content)
    (hr : x.replacements false = y.replacements false) : x.render = y.render := by
  have hreplacements : x.replacements = y.replacements := by
    funext withModifiers
    cases withModifiers with
    | false => exact hr
    | true => exact congrArg₂ (· ++ ·) hr (congrArg (Option.getD · []) (map_classInfo_of_orphan hi
        (f := fun c => c.modifierChanges.values) fun _ => rfl))
  funext range withModifiers
  rw [render, render, editsIn, editsIn, hreplacements, hs, hc]

variable (hr : x.render = y.render)

include hr

omit hi in
theorem compiled_congr (hs : x.span = y.span) : x.compiled = y.compiled := by
  rw [compiled, compiled, hr, hs]

theorem constructorText_congr : x.constructorText = y.constructorText := by
  have hbody := map_classInfo_of_orphan hi (f := ClassInfo.constructorBody) fun _ => rfl
  have hbind : ∀ z : Symbol, z.classInfo.bind ClassInfo.constructorBody =
      (z.classInfo.map ClassInfo.constructorBody).bind id := fun z => by
    rw [Option.bind_map]
    rfl
  rw [constructorText, constructorText, hbind, hbind, hbody, hr]

theorem memberText?_congr : x.memberText? = y.memberText? := by
  funext name
  have hspan := map_classInfo_of_orphan hi (f := fun c => c.memberSpan? name) fun _ => rfl
  have hbind : ∀ z : Symbol, z.memberText? name =
      ((z.classInfo.map fun c => c.memberSpan? name).bind id).map fun s => z.render s true := by
    intro z
    rw [memberText?, Option.bind_map]
    cases hz : z.classInfo with
    | none => rfl
    | some c => cases hc : c.memberSpan? name <;> simp [hc]
  rw [hbind, hbind, hspan, hr]

end Render

section Share

variable (h : x.orphan = y.orphan)

include h

theorem owners_of_orphan : Context.owners x = Context.owners y := by
  rw [Context.owners, Context.owners, table_of_orphan h,
    map_classInfo_of_orphan (map_orphan_of_orphan h) (f := fun c => c.modifierChanges.values.map
      fun t => (t.span, t.replacement)) fun _ => rfl]

theorem render_of_orphan : x.render = y.render := by
  apply render_congr (map_orphan_of_orphan h) (congrArg span h :) (congrArg content h :)
  rw [replacements, replacements, table_of_orphan h]
  rfl

theorem compiled_of_orphan : x.compiled = y.compiled :=
  compiled_congr (render_of_orphan h) (congrArg span h :)

theorem constructorText_of_orphan : x.constructorText = y.constructorText :=
  constructorText_congr (map_orphan_of_orphan h) (render_of_orphan h)

theorem memberText?_of_orphan : x.memberText? = y.memberText? :=
  memberText?_congr (map_orphan_of_orphan h) (render_of_orphan h)

end Share

/-! ## Late imports -/

variable (x)

theorem updateClass_updateClass (s : Symbol) (f g : ClassInfo → ClassInfo) :
    (s.updateClass f).updateClass g = s.updateClass (g ∘ f) := by
  rw [updateClass, updateClass, updateClass, Option.map_map]

theorem orphan_settle (name target source : String) (r : WaitingReference) :
    (x.settle name target source r).orphan = x.orphan.settle name target source r := by
  have hedge : ∀ (s : Symbol) (e : Dependency), (s.addEdge e).orphan = s.orphan.addEdge e := by
    intro s e
    unfold addEdge orphan updateClass
    split_ifs <;> rfl
  have hbase : ClassInfo.orphan ∘ completeBase name target =
      completeBase name target ∘ ClassInfo.orphan := by
    funext c
    by_cases hn : c.awaitedBase = some name <;> simp [completeBase, ClassInfo.orphan, hn]
  rw [settle, hedge, orphan, updateClass_updateClass, hbase, ← updateClass_updateClass]
  rfl

theorem orphan_learn (l : LateImport) : (x.learn l).orphan = x.orphan.learn l.orphan := by
  have hadopt : ∀ parent, ClassInfo.orphan ∘ Project.adoptParent l.target parent =
      ClassInfo.orphan := by
    intro parent
    funext c
    unfold Function.comp Project.adoptParent
    split_ifs <;> rfl
  have hnone : Project.adoptParent l.target none ∘ ClassInfo.orphan = ClassInfo.orphan := by
    funext c
    unfold Function.comp Project.adoptParent
    split_ifs <;> rfl
  set r : WaitingReference := ⟨default, l.deferral.strong, l.deferral.placed⟩
  calc (x.learn l).orphan
      = (x.settle l.name l.target l.source r).orphan := by
        rw [learn, Store.settled, orphan, updateClass_updateClass, hadopt, orphan]
    _ = (x.settle l.name l.target l.source r).orphan.updateClass
          (Project.adoptParent l.target none) := by rw [orphan, updateClass_updateClass, hnone]
    _ = (x.orphan.settle l.name l.target l.source r).updateClass
          (Project.adoptParent l.target none) := by rw [orphan_settle]

/-- **What is told of late imports** does not depend on the symbols that were found. -/
theorem orphan_learnAll (ls : List LateImport) :
    (x.learnAll ls).orphan = x.orphan.learnAll (ls.map LateImport.orphan) := by
  rw [learnAll, learnAll, List.foldl_map]
  exact (List.foldl_hom orphan fun _ l => (orphan_learn _ l).symm).symm

/-! ## Symbols apart from their classes -/

/-- A symbol apart from the data of a class. -/
def classless (s : Symbol) : Symbol := { s with classInfo := none }

@[simp] theorem classless_orphan : x.orphan.classless = x.classless := rfl

/-- The text of the whole declaration leaves the modifiers of members alone. -/
theorem compiled_classless : x.classless.compiled = x.compiled := rfl

theorem classless_learn (l : LateImport) : (x.learn l).classless = x.classless.learn l := by
  have hedge : ∀ (s : Symbol) (e : Dependency), (s.addEdge e).classless = s.classless.addEdge e := by
    intro s e
    unfold addEdge classless
    split_ifs <;> rfl
  set r : WaitingReference := ⟨default, l.deferral.strong, l.deferral.placed⟩
  calc (x.learn l).classless
      = (x.settle l.name l.target l.source r).classless := rfl
    _ = x.classless.settle l.name l.target l.source r := by
        rw [settle, hedge]
        rfl
    _ = x.classless.learn l := by
        rw [learn, Store.settled, updateClass, settle, addEdge]
        split_ifs <;> rfl

/-- **What a name was found to mean** is written and depended on whatever the class is like. -/
theorem classless_learnAll (ls : List LateImport) :
    (x.learnAll ls).classless = x.classless.learnAll ls := by
  rw [learnAll, learnAll]
  exact (List.foldl_hom classless fun _ l => (classless_learn _ l).symm).symm

end Symbol

end Bindery
