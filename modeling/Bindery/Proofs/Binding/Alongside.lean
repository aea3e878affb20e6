import Bindery.Proofs.Binding.Classification
import Bindery.Proofs.Binding.Heritage
import Bindery.Proofs.Binding.Reports
import Bindery.Proofs.Scope.Drained
import Bindery.Proofs.Symbol.Orphan

/-!
# A unit bound in another project

What a declaration becomes depends on its unit and on the references that are read. Of the symbols
of other units only the parent of a class is looked up besides.

* `Context.SameMeaning`, `Context.SameUnit`: contexts with the same names, contexts of one unit.
* `Context.Kindred`, **`Context.SameUnit.inherit`**: what its heritage clauses lead to.
* `Context.Akin`: two results of one declaration, whatever it refers to.
* **`Context.SameUnit.results`**: a statement has such results.
* **`Context.SameUnit.bind`**: where the same references are read, nothing but parents can differ.
-/

namespace Bindery

namespace Context

open Draft

/-- **Contexts in which every name means the same.** -/
structure SameMeaning (cx cx' : Context) : Prop where
  options : cx.options = cx'.options
  isBuiltin : ∀ n, cx.scope.isBuiltin n = cx'.scope.isBuiltin n
  meaning : ∀ n, cx.scope.meaning n = cx'.scope.meaning n

/-- **Contexts of one unit**, in different projects or at different times. -/
structure SameUnit (cx cx' : Context) : Prop where
  tree : cx.tree = cx'.tree
  options : cx.options = cx'.options
  scope : cx.scope.drained = cx'.scope.drained

variable {cx cx' : Context} {s : Symbol} {rs rs' : List Reference}

/-! ## Names -/

namespace SameMeaning

variable (h : cx.SameMeaning cx')

include h

theorem symm : cx'.SameMeaning cx :=
  ⟨h.options.symm, fun n => (h.isBuiltin n).symm, fun n => (h.meaning n).symm⟩

theorem target? : cx.target? = cx'.target? := by
  funext n
  rw [Context.target?, h.meaning, Context.target?]

theorem replacement? : cx.replacement? = cx'.replacement? := by
  funext n
  rw [Context.replacement?, h.meaning, h.options, Context.replacement?]

theorem edge? : cx.edge? s = cx'.edge? s := by
  funext r
  rw [Context.edge?, h.meaning, Context.edge?]

theorem deferral? : cx.deferral? = cx'.deferral? := by
  funext r
  rw [Context.deferral?, h.target?, Context.deferral?]

theorem outcome? : cx.outcome? s = cx'.outcome? s := by
  funext r
  rw [Context.outcome?, Reference.tracked?, h.isBuiltin, h.target?, Context.outcome?,
    Reference.tracked?]

/-- What references add up to is the same in either context. -/
theorem reflects {d : Draft} (hd : d.Reflects cx s rs) : d.Reflects cx' s rs := by
  have hm : cx.met s rs = cx'.met s rs := met_congr h.isBuiltin
  refine ⟨hd.bare, ?_, ?_, ?_, ?_, fun n => ?_⟩
  · rw [hd.loaded, hm, h.target?]
  · rw [hd.deferred, hm, h.deferral?]
  · rw [hd.edges, hm, h.edge?]
  · rw [hd.placed, placedNames_congr h.isBuiltin]
  · rw [hd.mentions, Context.mentions?, placesOf_congr h.isBuiltin, isWritten_congr h.isBuiltin,
      h.replacement?, Context.mentions?]

end SameMeaning

section Names

variable (h : cx.SameUnit cx')

include h

theorem SameUnit.sameMeaning : cx.SameMeaning cx' :=
  ⟨h.options, Scope.isBuiltin_of_drained h.scope, Scope.meaning_of_drained h.scope⟩

theorem SameUnit.isLibrary : cx.scope.isLibrary = cx'.scope.isLibrary :=
  Scope.isLibrary_of_drained h.scope

theorem SameUnit.diagnose : cx.diagnose = cx'.diagnose := by
  funext span p
  rw [Context.diagnose, Scope.uri_of_drained h.scope, Context.diagnose]

end Names

/-! ## Heritage -/

section Heritage

theorem classInfo_heritageTarget (hidden : List String) (shape : TypeShape) (d : Draft) :
    (cx.heritageTarget hidden shape d).1.symbol.classInfo = d.symbol.classInfo := by
  unfold heritageTarget
  split_ifs
  · rfl
  · exact classInfo_resolveFirst cx d _

/-- The second type that is extended is reported, unless it is one of an interface. -/
theorem diagnostics_extend (clause : Slot) (shape : TypeShape) (target : Option String)
    (l : Lineage) : (cx.extend clause shape target l).diagnostics = l.diagnostics ++
      if l.seen = 1 ∧ l.draft.symbol.kind ≠ .interfaceSymbol then
        [cx.diagnose ((cx.tree.span? clause).getD l.draft.symbol.nameSpan)
          (.multipleBases ((l.draft.symbol.classInfo.bind ClassInfo.base).getD ""))]
      else [] := by
  simp only [extend]
  by_cases h0 : l.seen = 0
  · simp [h0]
  by_cases hk : l.draft.symbol.kind = .interfaceSymbol
  · cases target <;> simp [h0, hk]
  · by_cases h1 : l.seen = 1
    · simp [h1, hk]
    · simp [h0, h1, hk]

/-- **Two lineages of one class**, which differ in the symbol of the base alone. -/
structure Kindred (cx cx' : Context) (s : Symbol) (l l' : Lineage) : Prop where
  left : ∃ rs, l.draft.Reflects cx s rs
  right : ∃ rs, l'.draft.Reflects cx' s rs
  info : l.draft.symbol.classInfo.map ClassInfo.orphan =
    l'.draft.symbol.classInfo.map ClassInfo.orphan
  seen : l.seen = l'.seen
  diagnostics : l.diagnostics = l'.diagnostics

/-- Two changes of a class that do not look at the symbol of its base. -/
theorem map_orphan_congr {c c' : Option ClassInfo} {g g' : ClassInfo → ClassInfo}
    (h : c.map ClassInfo.orphan = c'.map ClassInfo.orphan)
    (hg : ∀ c, (g c).orphan = (g' c.orphan).orphan)
    (hg' : ∀ c, (g' c).orphan = (g' c.orphan).orphan) :
    (c.map g).map ClassInfo.orphan = (c'.map g').map ClassInfo.orphan := by
  have hf := congrArg (Option.map (ClassInfo.orphan ∘ g')) h
  rw [Option.map_map, Option.map_map] at hf
  have hgo : ClassInfo.orphan ∘ g = (ClassInfo.orphan ∘ g') ∘ ClassInfo.orphan := funext hg
  rw [Option.map_map, Option.map_map, hgo, hf]
  exact (congrArg (Option.map · c') (funext hg') :).symm

section Kindred

variable {l l' : Lineage} (hl : Kindred cx cx' s l l')

include hl

theorem Kindred.kind : l.draft.symbol.kind = l'.draft.symbol.kind := by
  obtain ⟨⟨_, hr⟩, ⟨_, hr'⟩, -⟩ := hl
  exact (congrArg Symbol.kind (hr.bare.trans hr'.bare.symm) :)

theorem Kindred.nameSpan : l.draft.symbol.nameSpan = l'.draft.symbol.nameSpan := by
  obtain ⟨⟨_, hr⟩, ⟨_, hr'⟩, -⟩ := hl
  exact (congrArg Symbol.nameSpan (hr.bare.trans hr'.bare.symm) :)

theorem Kindred.base : l.draft.symbol.classInfo.bind ClassInfo.base =
    l'.draft.symbol.classInfo.bind ClassInfo.base := by
  have h : (l.draft.symbol.classInfo.map _).bind ClassInfo.base = _ :=
    congrArg (Option.bind · ClassInfo.base) hl.info
  rwa [Option.bind_map, Option.bind_map] at h

theorem Kindred.implement (target : Option String) :
    Kindred cx cx' s (Context.implement target l) (Context.implement target l') := by
  obtain ⟨⟨rs, hr⟩, ⟨rs', hr'⟩, hinfo, hseen, hdiag⟩ := hl
  refine ⟨⟨rs, reflects_implement hr target⟩, ⟨rs', reflects_implement hr' target⟩, ?_, ?_, ?_⟩
  · rw [classInfo_implement, classInfo_implement]
    exact map_orphan_congr hinfo (fun _ => rfl) fun _ => rfl
  · rw [seen_implement, seen_implement, hseen]
  · rw [diagnostics_implement, diagnostics_implement, hdiag]

theorem Kindred.extend (h : cx.SameUnit cx') (clause : Slot) (shape : TypeShape)
    (target : Option String) :
    Kindred cx cx' s (cx.extend clause shape target l) (cx'.extend clause shape target l') := by
  have hkind := hl.kind
  have hspan := hl.nameSpan
  have hbase := hl.base
  obtain ⟨⟨rs, hr⟩, ⟨rs', hr'⟩, hinfo, hseen, hdiag⟩ := hl
  refine ⟨⟨rs, reflects_extend hr _ _ _⟩, ⟨rs', reflects_extend hr' _ _ _⟩, ?_, ?_, ?_⟩
  · by_cases h0 : l.seen = 0
    · obtain ⟨parent, he⟩ := classInfo_extend_first cx l clause shape target h0
      obtain ⟨parent', he'⟩ := classInfo_extend_first cx' l' clause shape target (hseen ▸ h0)
      rw [he, he']
      simp only [Scope.contains_waiting_of_drained h.scope]
      exact map_orphan_congr hinfo (fun _ => rfl) fun _ => rfl
    · rw [classInfo_extend_further cx l clause shape target h0,
        classInfo_extend_further cx' l' clause shape target (hseen ▸ h0), hkind]
      exact map_orphan_congr hinfo (fun _ => rfl) fun _ => rfl
  · rw [seen_extend, seen_extend, hseen]
  · rw [diagnostics_extend, diagnostics_extend, hdiag, hseen, hkind, hbase, hspan, h.tree,
      h.diagnose]

end Kindred

variable (h : cx.SameUnit cx')

include h

theorem SameUnit.heritageTarget {d d' : Draft} (hd : d.Reflects cx s rs)
    (hd' : d'.Reflects cx' s rs') (hidden : List String) (shape : TypeShape) :
    (cx.heritageTarget hidden shape d).2 = (cx'.heritageTarget hidden shape d').2 := by
  have hlikely : cx.likelyTarget = cx'.likelyTarget := by
    funext n
    rw [likelyTarget, Scope.locals_of_drained h.scope, Scope.imports_of_drained h.scope,
      likelyTarget]
  unfold Context.heritageTarget
  rw [h.isLibrary, hlikely]
  split_ifs
  · rfl
  · rw [(hd.resolveFirst _).2, h.sameMeaning.outcome?]
    exact (hd'.resolveFirst _).2.symm

theorem SameUnit.inheritShape {l l' : Lineage} (hl : Kindred cx cx' s l l') (hidden : List String)
    (x : Inherited) :
    Kindred cx cx' s (cx.inheritShape hidden l x) (cx'.inheritShape hidden l' x) := by
  obtain ⟨⟨rs, hr⟩, ⟨rs', hr'⟩, hinfo, hseen, hdiag⟩ := hl
  have ht := h.heritageTarget hr hr' hidden x.shape
  have hk : Kindred cx cx' s { l with draft := (cx.heritageTarget hidden x.shape l.draft).1 }
      { l' with draft := (cx'.heritageTarget hidden x.shape l'.draft).1 } := by
    refine ⟨⟨_, reflects_heritageTarget hr hidden x.shape⟩,
      ⟨_, reflects_heritageTarget hr' hidden x.shape⟩, ?_, hseen, hdiag⟩
    rw [classInfo_heritageTarget, classInfo_heritageTarget, hinfo]
  unfold Context.inheritShape
  dsimp only
  rw [ht]
  cases x.kind with
  | extending => exact hk.extend h _ _ _
  | implementing => exact hk.implement _

/-- **All types of the clauses.** -/
theorem SameUnit.inherit (hs : ({ symbol := s } : Draft).Reflects cx s []) (hidden : List String)
    (clauses : List Slot) :
    Kindred cx cx' s (cx.inherit hidden s clauses) (cx'.inherit hidden s clauses) := by
  have hin : cx.inherited = cx'.inherited := by
    funext clause
    rw [inherited, h.tree, inherited]
  rw [inherit_eq, inherit_eq, hin]
  exact List.foldl_rel ⟨⟨[], hs⟩, ⟨[], h.sameMeaning.reflects hs⟩, rfl, rfl, rfl⟩
    fun x _ _ _ hl => h.inheritShape hl hidden x

end Heritage

/-! ## Members -/

section Members

theorem orphan_markPrivate (header : Header) (c : ClassInfo) :
    cx.markPrivate header c.orphan = (cx.markPrivate header c).orphan := by
  unfold markPrivate
  split <;> rfl

theorem orphan_addProperty (p : Property) (c : ClassInfo) :
    c.orphan.addProperty p = (c.addProperty p).orphan := by
  unfold ClassInfo.addProperty
  split_ifs <;> rfl

theorem orphan_recordMember (c : ClassInfo) (i : Nat) : cx.recordMember c.orphan i =
    ((cx.recordMember c i).1.orphan, (cx.recordMember c i).2) := by
  unfold recordMember
  cases cx.tree.node? (some i) with
  | none => rfl
  | some n =>
    dsimp only
    rcases cx.memberShape? i n.form with _ | (_ | ⟨_, _, _, header⟩ | ⟨_, _, header⟩)
    · rfl
    · rfl
    · dsimp only
      rw [orphan_markPrivate, orphan_addProperty]
    · dsimp only
      rw [orphan_markPrivate]
      rfl

theorem orphan_recordMembers (c : ClassInfo) (members : List Nat) :
    cx.recordMembers c.orphan members =
      ((cx.recordMembers c members).1.orphan, (cx.recordMembers c members).2) := by
  unfold recordMembers
  generalize ([] : List Diagnostic) = ds
  induction members generalizing c ds with
  | nil => rfl
  | cons i members ih =>
    rw [List.foldl_cons, List.foldl_cons, orphan_recordMember]
    exact ih _ _

theorem SameUnit.recordMembers (h : cx.SameUnit cx') :
    cx.recordMembers = cx'.recordMembers := by
  have hone : cx.recordMember = cx'.recordMember := by
    funext c i
    unfold recordMember memberShape? markPrivate privateMark? parameterNames
    rw [h.tree, h.diagnose]
  funext c members
  rw [Context.recordMembers, hone, Context.recordMembers]

end Members

/-! ## Statements -/

section Statement

/-- **Two results of one declaration**: the classes differ in the symbol of the base alone, and what
is reported besides the collisions is the same. -/
structure Akin (cx cx' : Context) (r r' : Bound × List Diagnostic) : Prop where
  info : r.1.symbol.classInfo.map ClassInfo.orphan = r'.1.symbol.classInfo.map ClassInfo.orphan
  reports : ∃ ds, r.2 = ds ++ cx.collisions r.1.symbol ∧ r'.2 = ds ++ cx'.collisions r'.1.symbol

variable (h : cx.SameUnit cx')

include h

theorem SameUnit.newSymbol? : cx.newSymbol? = cx'.newSymbol? := by
  funext kind i name header
  unfold Context.newSymbol? Scope.qualify
  rw [h.tree, h.options, Scope.uri_of_drained h.scope, Scope.path_of_drained h.scope]

theorem SameUnit.parameterNames : cx.parameterNames = cx'.parameterNames := by
  funext ps
  rw [Context.parameterNames, h.tree, Context.parameterNames]

theorem SameUnit.collisions {x y : Symbol} (hxy : x.orphan = y.orphan) :
    cx.collisions x = cx'.collisions y := by
  rw [Context.collisions, Symbol.owners_of_orphan hxy, h.diagnose, Context.collisions]

theorem SameUnit.bindPlain (kind : SymbolKind) (i : Nat) (name : Slot) (header : Header) :
    Option.Rel (Akin cx cx') (cx.bindPlain kind i name header)
      (cx'.bindPlain kind i name header) := by
  unfold Context.bindPlain
  rw [h.newSymbol?]
  cases cx'.newSymbol? kind (some i) name header with
  | none => exact .none
  | some s =>
    refine .some ⟨?_, [], rfl, rfl⟩
    show Option.map _ (Draft.resolveAll cx { symbol := s } _).symbol.classInfo =
      Option.map _ (Draft.resolveAll cx' { symbol := s } _).symbol.classInfo
    rw [classInfo_resolveAll, classInfo_resolveAll]

theorem SameUnit.bindVariable (header : Header) (d : Slot) :
    Option.Rel (Akin cx cx') (cx.bindVariable header d) (cx'.bindVariable header d) := by
  unfold Context.bindVariable
  rw [h.tree]
  cases cx'.tree.form? d with
  | none => exact .none
  | some form =>
    cases d with
    | none => exact .none
    | some i => exact h.bindPlain .variableSymbol i form.name header

theorem SameUnit.bindClass (kind : ClassKind) (i : Nat) (parts : ClassParts) :
    Option.Rel (Akin cx cx') (cx.bindClass kind i parts) (cx'.bindClass kind i parts) := by
  have hn := h.newSymbol?
  have hd : cx.newClassInfo kind i = cx'.newClassInfo kind i := by
    funext ps s
    rw [newClassInfo, h.tree, newClassInfo]
  unfold Context.bindClass memberNodes
  rw [← hn, hd, h.parameterNames, h.recordMembers, h.tree]
  cases hs : cx.newSymbol? (classSymbolKind kind) (some i) parts.name parts.header with
  | none => exact .none
  | some s =>
    set hidden := cx'.parameterNames parts.typeParameters
    set data := cx'.newClassInfo kind i hidden s
    have hk : Kindred cx cx' _ (cx.inherit hidden { s with classInfo := some data } parts.heritage)
        (cx'.inherit hidden { s with classInfo := some data } parts.heritage) :=
      h.inherit (reflects_newSymbol? hs (some data)) hidden parts.heritage
    set l := cx.inherit hidden { s with classInfo := some data } parts.heritage
    set l' := cx'.inherit hidden { s with classInfo := some data } parts.heritage
    set members := (cx'.tree.children (some i)).filter fun c =>
      some c ∉ parts.heritage ∧ some c ∉ parts.header.decorators
    have hc : (l.draft.symbol.classInfo.getD data).orphan =
        (l'.draft.symbol.classInfo.getD data).orphan := by
      have hi : (l.draft.symbol.classInfo.map _).getD data.orphan = _ :=
        congrArg (Option.getD · data.orphan) hk.info
      rwa [Option.getD_map, Option.getD_map] at hi
    have hr := @orphan_recordMembers cx' (l.draft.symbol.classInfo.getD data) members
    rw [hc, orphan_recordMembers, Prod.mk.injEq] at hr
    refine .some ⟨?_, l.diagnostics ++
      (cx'.recordMembers (l.draft.symbol.classInfo.getD data) members).2, rfl, ?_⟩
    · show Option.map _ (Draft.resolveAll cx _ _).symbol.classInfo =
        Option.map _ (Draft.resolveAll cx' _ _).symbol.classInfo
      rw [classInfo_resolveAll, classInfo_resolveAll]
      exact congrArg some hr.1.symm
    · rw [hk.diagnostics, ← hr.2]
      rfl

theorem SameUnit.akin_bind (statement : Slot) : ∃ results results',
    List.Forall₂ (Akin cx cx') results results' ∧
      cx.bind statement = (results.map Prod.fst, results.flatMap Prod.snd) ∧
      cx'.bind statement = (results'.map Prod.fst, results'.flatMap Prod.snd) := by
  have one : ∀ {r r'}, Option.Rel (Akin cx cx') r r' →
      List.Forall₂ (Akin cx cx') ([r].filterMap id) ([r'].filterMap id) := fun {r r'} hr => by
    cases hr with
    | none => exact .nil
    | some hr => exact .cons hr .nil
  unfold Context.bind gather
  rw [← h.tree]
  rcases statement with _ | i
  · exact ⟨[], [], .nil, rfl, rfl⟩
  rcases cx.tree.form? (some i) with _ | form
  · exact ⟨[], [], .nil, rfl, rfl⟩
  cases form with
  | classLike kind parts => exact ⟨_, _, one (h.bindClass kind i parts), rfl, rfl⟩
  | enumeration header name _ => exact ⟨_, _, one (h.bindPlain _ i name header), rfl, rfl⟩
  | function kind f =>
    cases kind with
    | declaration => exact ⟨_, _, one (h.bindPlain _ i f.name f.header), rfl, rfl⟩
    | _ => exact ⟨[], [], .nil, rfl, rfl⟩
  | typeAlias header name _ _ => exact ⟨_, _, one (h.bindPlain _ i name header), rfl, rfl⟩
  | variableStatement header declarations =>
    refine ⟨_, _, List.rel_filterMap (R := Option.Rel (Akin cx cx')) (fun _ _ hr => hr) ?_, rfl,
      rfl⟩
    rw [List.forall₂_map_left_iff, List.forall₂_map_right_iff, List.forall₂_same]
    exact fun d _ => h.bindVariable header d
  | _ => exact ⟨[], [], .nil, rfl, rfl⟩

/-- **What a statement declares**, result by result, whatever is known of its declarations. -/
theorem SameUnit.results {P : Symbol × List Reference → Symbol × List Reference → Prop}
    {statement : Slot}
    (hd : List.Forall₂ P (cx.declarations statement) (cx'.declarations statement)) :
    ∃ results results', List.Forall₂ (fun r r' => Akin cx cx' r r' ∧
        ∃ d d', P d d' ∧ cx.IsBoundAs d r.1 ∧ cx'.IsBoundAs d' r'.1) results results' ∧
      cx.bind statement = (results.map Prod.fst, results.flatMap Prod.snd) ∧
      cx'.bind statement = (results'.map Prod.fst, results'.flatMap Prod.snd) := by
  obtain ⟨results, results', hr, hb, hb'⟩ := h.akin_bind statement
  refine ⟨results, results', ?_, hb, hb'⟩
  have hf : List.Forall₂ cx.IsBoundAs _ _ := forall₂_bind statement
  have hf' : List.Forall₂ cx'.IsBoundAs _ _ := forall₂_bind statement
  rw [hb, List.forall₂_map_right_iff] at hf
  rw [hb', List.forall₂_map_right_iff] at hf'
  generalize cx.declarations statement = ds at hd hf
  generalize cx'.declarations statement = ds' at hd hf'
  clear hb hb'
  induction hr generalizing ds ds' with
  | nil => exact .nil
  | @cons r r' _ _ hr _ ih =>
    obtain ⟨d, ds, hdr, hds, rfl⟩ := List.forall₂_cons_right_iff.mp hf
    obtain ⟨d', ds', hdr', hds', rfl⟩ := List.forall₂_cons_right_iff.mp hf'
    obtain ⟨hdd, hd⟩ := List.forall₂_cons.mp hd
    exact .cons ⟨hr, d, d', hdd, hdr, hdr'⟩ (ih ds hds ds' hd hds')

/-- **Where the same references are read**, nothing but the symbols of bases can differ. -/
theorem SameUnit.bind {statement : Slot}
    (hd : cx.declarations statement = cx'.declarations statement) :
    List.Forall₂ (fun b b' => b.symbol.orphan = b'.symbol.orphan ∧ b.deferred = b'.deferred)
        (cx.bind statement).1 (cx'.bind statement).1 ∧
      (cx.bind statement).2 = (cx'.bind statement).2 := by
  obtain ⟨results, results', hr, hb, hb'⟩ :=
    h.results (P := Eq) (by rw [hd, List.forall₂_eq_eq_eq])
  rw [hb, hb']
  have hall : List.Forall₂ (fun r r' => (r.1.symbol.orphan = r'.1.symbol.orphan ∧
      r.1.deferred = r'.1.deferred) ∧ r.2 = r'.2) results results' := by
    refine hr.imp fun r r' ⟨hak, d, _, hdd, hdr, hdr'⟩ => ?_
    subst hdd
    have he := Draft.Reflects.ext (h.sameMeaning.reflects hdr) hdr'
    rw [Draft.mk.injEq] at he
    have ho := Symbol.orphan_congr he.1 hak.info
    obtain ⟨ds, hds, hds'⟩ := hak.reports
    exact ⟨⟨ho, he.2⟩, by rw [hds, hds', h.collisions ho]⟩
  refine ⟨?_, ?_⟩
  · rw [List.forall₂_map_left_iff, List.forall₂_map_right_iff]
    exact hall.imp fun _ _ h => h.1
  · show (results.map Prod.snd).flatten = (results'.map Prod.snd).flatten
    congr 1
    rw [← List.forall₂_eq_eq_eq, List.forall₂_map_left_iff, List.forall₂_map_right_iff]
    exact hall.imp fun _ _ h => h.2

end Statement

end Context

end Bindery
