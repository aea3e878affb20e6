import Bindery.Proofs.Binding.Lineage
import Bindery.Proofs.Symbol.Render

/-!
# Declarations of a library

In a library nothing is looked up. Its declarations have no references, are written as they stand,
and wait for nothing; only the names in the heritage clauses of a class are looked at.

* `Symbol.IsQuiet`: a symbol without references.
* **`Context.quiet_of_mem_bind`**: the symbols of a library.
* `Scope.NamesBases`: the bases of a class are what the names in its clauses stand for.
* **`Context.namesBases_of_mem_bind`**: the classes of a library.
-/

namespace Bindery

open Text

/-! ## Symbols without references -/

/-- **A symbol without references**, which is written as it stands. -/
structure Symbol.IsQuiet (x : Symbol) : Prop where
  table : x.table = {}
  edges : x.edges = []
  compiled : x.compiled = x.content

/-- **Where nothing is replaced, a declaration is written as it stands**, whether its span lies inside
the source or not. -/
theorem Symbol.compiled_of_table {x : Symbol} (ht : x.table = {}) (source : String)
    (hc : x.content = (sliceString? source x.span).getD "") : x.compiled = x.content := by
  have hedits : x.editsIn x.span false = [] := by
    have hnone : x.replacements false = [] := by
      rw [replacements, ht]
      rfl
    rw [editsIn, hnone, List.filterMap_nil]
  have hrender : ∀ {text}, x.source? x.span = some text → x.compiled = text := fun {text} hs => by
    rw [compiled, render_of_source? hs, hedits, Edit.applyPossible_nil]
  cases h : sliceString? source x.span with
  | none =>
    rw [h, Option.getD_none] at hc
    cases hs : x.source? x.span with
    | none =>
      rw [source?] at hs
      rw [compiled, render, hs, hc]
    | some text =>
      obtain ⟨as, bs, hl, -, -⟩ := source?_eq_some_iff.mp hs
      have htext : text.toList = [] := by
        rw [hc, String.toList_empty, eq_comm, List.append_eq_nil_iff, List.append_eq_nil_iff] at hl
        exact hl.1.2
      rw [hrender hs, hc, ← String.toList_eq_nil_iff]
      exact htext
  | some text =>
    rw [h, Option.getD_some] at hc
    rw [sliceString?_eq, Option.map_eq_some_iff] at h
    obtain ⟨cs, hcs, rfl⟩ := h
    obtain ⟨as, rest, -, hs, he⟩ := slice?_eq_some_iff.mp hcs
    apply hrender
    refine source?_eq_some_iff.mpr ⟨[], [], by simp, rfl, ?_⟩
    rw [hc, String.toList_ofList]
    omega

namespace Context

open Draft

variable {cx : Context} {statement : Slot} {b : Bound} (hlib : cx.scope.isLibrary = true)

include hlib

theorem references_of_library {d : Symbol × List Reference} (hd : d ∈ cx.declarations statement) :
    d.2 = [] := by
  have hplain : ∀ i header, cx.plainReferences i header = [] := fun i header => by
    rw [plainReferences, if_pos hlib]
  have hshape : ∀ hidden shape, cx.shapeReferences hidden shape = [] := fun hidden shape => by
    rw [shapeReferences, if_pos hlib]
  have hclass : ∀ i parts, cx.classReferences i parts = [] := fun i parts => by
    rw [classReferences, heritageReferences, bodyReferences, if_pos hlib]
    simp [hshape]
  have hone : ∀ {kind i name header}, cx.declarePlain kind i name header = some d → d.2 = [] := by
    intro kind i name header hd
    obtain ⟨s, -, rfl⟩ := Option.map_eq_some_iff.mp hd
    exact hplain i header
  unfold declarations at hd
  split at hd
  · split at hd
    · obtain ⟨s, -, rfl⟩ := Option.map_eq_some_iff.mp (Option.mem_toList.mp hd)
      exact hclass _ _
    · exact hone (Option.mem_toList.mp hd)
    · exact hone (Option.mem_toList.mp hd)
    · exact hone (Option.mem_toList.mp hd)
    · obtain ⟨v, -, hv⟩ := List.mem_filterMap.mp hd
      simp only [declareVariable, Option.bind_eq_bind, Option.bind_eq_some_iff] at hv
      obtain ⟨_, _, _, _, hv⟩ := hv
      exact hone hv
    · cases hd
  · cases hd

theorem quiet_of_mem_bind (hb : b ∈ (cx.bind statement).1) :
    b.symbol.IsQuiet ∧ b.deferred = [] := by
  obtain ⟨⟨s, rs⟩, hd, h⟩ := exists_of_mem_bind hb
  obtain rfl : rs = [] := references_of_library hlib hd
  have htable : b.symbol.table = {} := Table.ext_get? h.placed fun n => h.mentions n
  refine ⟨⟨htable, h.edges, ?_⟩, h.deferred⟩
  obtain ⟨_, i, name, header, s', hs, he⟩ := newSymbol?_of_mem_declarations hd
  have hbare : b.symbol.bare = s.bare := h.bare
  apply Symbol.compiled_of_table htable cx.tree.source
  show b.symbol.bare.content = (sliceString? _ b.symbol.bare.span).getD ""
  rw [hbare]
  obtain ⟨_, span, _, hspan, rfl⟩ := exists_of_newSymbol? hs
  have hcontent : s.content = cx.tree.text i := (congrArg Symbol.content he :)
  have hs : s.span = span := (congrArg Symbol.span he :)
  show s.content = (sliceString? _ s.span).getD ""
  rw [hcontent, hs, Tree.text, hspan, Option.bind_some]

end Context

/-! ## Bases -/

/-- The types in the clauses of a class with one keyword. -/
def Tree.heritageShapes (t : Tree) (kind : HeritageKind) (parts : ClassParts) : List TypeShape :=
  parts.heritage.flatMap fun clause =>
    match t.form? clause with
    | some (.heritage k types) => if k = kind then types.filterMap (TypeShape.ofNode? t) else []
    | _ => []

/-- What a name is taken to stand for where nothing is looked up: a declaration of the unit, else
what it is imported as, else itself. -/
def Scope.likely (s : Scope) (n : String) : String :=
  ((s.locals.get? n).or ((s.imports.get? n).map ImportedName.target)).getD n

/-- **The bases of a class are what the names of its types stand for**: the first type that is
extended, and every type that is implemented. -/
structure Scope.NamesBases (s : Scope) (tree : Tree) (parts : ClassParts) (c : ClassInfo) :
    Prop where
  base : ∀ w arguments, (tree.heritageShapes .extending parts).head? = some (.single w arguments) →
    c.base = some (s.likely (stripArguments w.value).1)
  interfaces : ∀ w arguments, .single w arguments ∈ tree.heritageShapes .implementing parts →
    s.likely (stripArguments w.value).1 ∈ c.interfaces

namespace Context

open Draft

variable {cx : Context}

theorem shapesOf_inherited (kind : HeritageKind) (parts : ClassParts) :
    shapesOf kind (parts.heritage.flatMap cx.inherited) = cx.tree.heritageShapes kind parts := by
  unfold shapesOf Tree.heritageShapes
  rw [List.filter_flatMap, List.map_flatMap]
  apply List.flatMap_congr
  intro clause _
  unfold inherited
  rcases cx.tree.form? clause with _ | form
  · rfl
  cases form with
  | heritage k types =>
    dsimp only
    rw [List.filter_map, List.map_map]
    split_ifs with hk
    · rw [List.filter_eq_self.mpr (by simp [hk])]
      exact List.map_id _
    · rw [List.filter_eq_nil_iff.mpr (by simp [hk]), List.map_nil]
  | _ => rfl

/-- The target of a type where nothing is looked up. -/
def likelyBase? (cx : Context) (shape : TypeShape) : Option String :=
  shape.word?.map fun w => cx.scope.likely (stripArguments w.value).1

/-- A class of a library whose first clauses have been read. -/
structure ReadsNames (cx : Context) (xs : List Inherited) (l : Lineage) : Prop where
  seen : l.seen = (shapesOf .extending xs).length
  info : ∃ c, l.draft.symbol.classInfo = some c ∧
    c.base = (shapesOf .extending xs).head?.bind cx.likelyBase? ∧
    c.interfaces = Roster.ofList ((shapesOf .implementing xs).filterMap cx.likelyBase?)

section Library

variable (hlib : cx.scope.isLibrary = true)

include hlib

theorem ReadsNames.inheritShape {hidden : List String} {xs : List Inherited} {l : Lineage}
    (h : cx.ReadsNames xs l) (x : Inherited) :
    cx.ReadsNames (xs ++ [x]) (cx.inheritShape hidden l x) := by
  obtain ⟨hseen, c, hc, hbase, hinterfaces⟩ := h
  have htarget : cx.heritageTarget hidden x.shape l.draft = (l.draft, cx.likelyBase? x.shape) := by
    rw [heritageTarget, if_pos hlib]
    rfl
  rw [Context.inheritShape, htarget]
  cases hx : x.kind with
  | extending =>
    have hshapes := shapesOf_append_of_eq hx xs
    have hother : shapesOf .implementing (xs ++ [x]) = shapesOf .implementing xs :=
      shapesOf_append_of_ne (by rw [hx]; decide) xs
    refine ⟨?_, ?_⟩
    · rw [hshapes, List.length_append, ← hseen]
      exact seen_extend _ _ _ _ _
    · rw [hshapes, hother]
      by_cases h0 : l.seen = 0
      · -- The first type that is extended is the base.
        obtain ⟨parent, he⟩ := classInfo_extend_first cx l x.clause x.shape
          (cx.likelyBase? x.shape) h0
        have hxs : shapesOf .extending xs = [] := List.length_eq_zero_iff.mp (hseen ▸ h0)
        exact ⟨_, he.trans (congrArg _ hc), by rw [hxs]; rfl, hinterfaces⟩
      · have he := classInfo_extend_further cx l x.clause x.shape (cx.likelyBase? x.shape) h0
        have hxs : shapesOf .extending xs ≠ [] := fun hnil => h0 (by rw [hseen, hnil]; rfl)
        refine ⟨_, he.trans (congrArg _ hc), ?_, hinterfaces⟩
        rw [List.head?_append_of_ne_nil _ hxs]
        exact hbase
  | implementing =>
    have hshapes := shapesOf_append_of_eq hx xs
    have hother : shapesOf .extending (xs ++ [x]) = shapesOf .extending xs :=
      shapesOf_append_of_ne (by rw [hx]; decide) xs
    have he := classInfo_implement l (cx.likelyBase? x.shape)
    refine ⟨?_, _, he.trans (congrArg _ hc), ?_, ?_⟩
    · rw [hother, ← hseen]
      exact seen_implement _ _
    · rw [hother]
      exact hbase
    · rw [hshapes, List.filterMap_append]
      show (cx.likelyBase? x.shape).elim c.interfaces c.interfaces.insert = _
      cases ht : cx.likelyBase? x.shape with
      | none => simp [ht, hinterfaces]
      | some t => simp [ht, hinterfaces, Roster.ofList_append_singleton]

theorem namesBases_bindClass {kind : ClassKind} {i : Nat} {parts : ClassParts} {b : Bound}
    {ds : List Diagnostic} (h : cx.bindClass kind i parts = some (b, ds)) :
    ∃ c, b.symbol.classInfo = some c ∧ cx.scope.NamesBases cx.tree parts c := by
  obtain ⟨s, -, hb⟩ := Option.map_eq_some_iff.mp h
  set hidden := cx.parameterNames parts.typeParameters
  set data := cx.newClassInfo kind i hidden s
  obtain ⟨-, c, hc, hbase, hinterfaces⟩ :
      cx.ReadsNames (parts.heritage.flatMap cx.inherited)
        (cx.inherit hidden { s with classInfo := some data } parts.heritage) :=
    inherit_induction ⟨rfl, data, rfl, rfl, rfl⟩ (fun _ _ x hl => hl.inheritShape hlib x) _
  rw [shapesOf_inherited] at hbase hinterfaces
  have hclass : b.symbol.classInfo = some (cx.recordMembers c (cx.memberNodes i parts)).1 := by
    have hsym := (congrArg (fun result => result.1.symbol.classInfo) hb).symm
    refine hsym.trans ((classInfo_resolveAll _ _ _).trans ?_)
    rw [hc]
    rfl
  obtain ⟨hsame, -, hsame'⟩ := @sameBases_recordMembers cx c (cx.memberNodes i parts)
  refine ⟨_, hclass, fun w arguments hw => ?_, fun w arguments hw => ?_⟩
  · rw [hsame, hbase, hw]
    rfl
  · rw [hsame', hinterfaces, Roster.mem_ofList]
    exact List.mem_filterMap.mpr ⟨_, hw, rfl⟩

/-- **The classes of a library** have the bases that their clauses name. -/
theorem namesBases_of_mem_bind {statement : Slot} {b : Bound} (hb : b ∈ (cx.bind statement).1)
    {kind : ClassKind} {parts : ClassParts}
    (hform : cx.tree.form? statement = some (.classLike kind parts)) :
    ∃ c, b.symbol.classInfo = some c ∧ cx.scope.NamesBases cx.tree parts c := by
  rcases statement with _ | i
  · cases hform
  unfold bind at hb
  rw [hform] at hb
  obtain ⟨ds, hb⟩ := mem_gather.mp hb
  exact namesBases_bindClass hlib (List.mem_singleton.mp hb).symm

end Library

end Context

end Bindery
