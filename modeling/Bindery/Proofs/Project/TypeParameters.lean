import Bindery.Proofs.Project.Past
import Bindery.Proofs.Symbol.Render

/-!
# References to type parameters

A type parameter hides the declarations of its name inside the construct that declares it. What is
written at such a place is decided for the name once and for all, by what the declaration refers to
elsewhere.

* `Context.LiesIn`: a reference lies inside a construct that declares a type parameter.
* `Past.written?`: what is written wherever a name stands.
* `Past.Shadows`: what becomes of references to type parameters.
* **`Past.Explains.shadows`**: this is so for every symbol with a past.
* **`History.shadows_run`**: every symbol in every run.
-/

namespace Bindery

/-! ## Constructs with type parameters -/

namespace Context

variable (cx : Context)

/-- The type parameters of the declaration that a statement makes. -/
def declaredParameters (statement : Slot) : List String :=
  match cx.tree.form? statement with
  | some (.classLike _ parts) => cx.parameterNames parts.typeParameters
  | _ => cx.ownTypeParameters statement

/-- **A reference of a statement lies inside a construct that declares the type parameter `n`**:
the declaration itself, or one of its methods. -/
inductive LiesIn (statement : Slot) (r : Reference) (n : String) : Prop where
  | declaration (h : n ∈ cx.declaredParameters statement)
  | method {i k : Nat} {kind : ClassKind} {parts : ClassParts} (hi : statement = some i)
      (hform : cx.tree.form? statement = some (.classLike kind parts))
      (hk : k ∈ cx.memberNodes i parts)
      (hr : r ∈ cx.memberReferences (cx.parameterNames parts.typeParameters) k)
      (hn : n ∈ cx.memberTypeParameters k)

variable {cx} {statement : Slot} {d : Symbol × List Reference} {r : Reference} {n : String}

theorem hidden_of_mem_shade {hidden : List String} {rs : List Reference}
    (h : r ∈ shade hidden rs) : r.hidden = hidden := by
  obtain ⟨r', -, rfl⟩ := List.mem_map.mp h
  rfl

theorem hidden_of_mem_heritageReferences {hidden : List String} {clauses : List Slot}
    (h : r ∈ cx.heritageReferences hidden clauses) : r.hidden = hidden := by
  obtain ⟨x, -, hr⟩ := List.mem_flatMap.mp h
  unfold shapeReferences at hr
  split_ifs at hr
  · cases hr
  · obtain ⟨w, -, rfl⟩ := List.mem_map.mp hr
    rfl

theorem mem_hidden_of_mem_classReferences {i : Nat} {parts : ClassParts}
    (h : r ∈ cx.classReferences i parts) (hn : n ∈ cx.parameterNames parts.typeParameters) :
    n ∈ r.hidden := by
  rcases List.mem_append.mp h with h | h
  · rwa [hidden_of_mem_heritageReferences h]
  · unfold bodyReferences at h
    split_ifs at h
    · cases h
    · rcases List.mem_append.mp h with h | h
      · obtain ⟨k, -, hr⟩ := List.mem_flatMap.mp h
        rw [hidden_of_mem_shade hr]
        exact List.mem_append_left _ hn
      · rwa [hidden_of_mem_shade h]

theorem mem_hidden_of_mem_plainReferences {i : Nat} {header : Header}
    (h : r ∈ cx.plainReferences i header) (hn : n ∈ cx.ownTypeParameters (some i)) :
    n ∈ r.hidden := by
  unfold plainReferences at h
  split_ifs at h
  · cases h
  · rwa [hidden_of_mem_shade h]

theorem references_of_declarePlain {kind : SymbolKind} {i : Nat} {name : Slot} {header : Header}
    (h : cx.declarePlain kind i name header = some d) : d.2 = cx.plainReferences i header := by
  obtain ⟨s, -, rfl⟩ := Option.map_eq_some_iff.mp h
  rfl

theorem mem_hidden_of_mem_declarations (hd : d ∈ cx.declarations statement) (hr : r ∈ d.2)
    (hn : n ∈ cx.declaredParameters statement) : n ∈ r.hidden := by
  rcases statement with _ | i
  · cases hd
  unfold declarations at hd
  unfold declaredParameters at hn
  rcases hform : cx.tree.form? (some i) with _ | form
  · rw [hform] at hd
    cases hd
  rw [hform] at hd hn
  have plain : ∀ {kind : SymbolKind} {name : Slot} {header : Header},
      d ∈ (cx.declarePlain kind i name header).toList → n ∈ cx.ownTypeParameters (some i) →
        n ∈ r.hidden := fun {kind name header} hd hn => by
    rw [references_of_declarePlain (Option.mem_toList.mp hd)] at hr
    exact mem_hidden_of_mem_plainReferences hr hn
  cases form with
  | classLike kind parts =>
    obtain ⟨s, -, rfl⟩ := Option.map_eq_some_iff.mp (Option.mem_toList.mp hd)
    exact mem_hidden_of_mem_classReferences hr hn
  | enumeration header name _ => exact plain hd hn
  | function kind f =>
    cases kind with
    | declaration => exact plain hd hn
    | _ => cases hd
  | typeAlias header name _ _ => exact plain hd hn
  | variableStatement header declarations =>
    -- The declarations of a variable statement have no type parameters.
    have hnone : cx.ownTypeParameters (some i) = [] := by rw [ownTypeParameters, hform]
    change n ∈ cx.ownTypeParameters (some i) at hn
    rw [hnone] at hn
    cases hn
  | _ => cases hd

/-- **A reference inside a construct** is one at which its type parameters hide names. -/
theorem LiesIn.mem_hidden (h : cx.LiesIn statement r n) (hd : d ∈ cx.declarations statement)
    (hr : r ∈ d.2) : n ∈ r.hidden := by
  cases h with
  | declaration hn => exact mem_hidden_of_mem_declarations hd hr hn
  | method _ _ _ hm hn =>
    rw [hidden_of_mem_shade hm]
    exact List.mem_append_right _ hn

theorem exists_of_mem_opened (hd : d ∈ cx.declarations statement) {t : Reference}
    (h : t ∈ cx.opened d.1 d.2) : ∃ r ∈ d.2, t = r.strip ∧ ¬cx.LiesIn statement r t.name := by
  obtain ⟨ht, ho⟩ := List.mem_filter.mp h
  obtain ⟨r, hr, hrt⟩ := List.mem_filterMap.mp ht
  rw [Reference.tracked?] at hrt
  split_ifs at hrt
  cases hrt
  refine ⟨r, hr, rfl, fun hin => (Reference.isOpen_iff.mp ho).1 ?_⟩
  rw [Reference.hidden_strip]
  exact hin.mem_hidden hd hr

end Context

/-! ## What is written -/

namespace Past

variable (h : Past) (d : Symbol × List Reference)

/-- **What is written wherever a name stands**: what it was found to mean last, else what it meant
when the declaration was bound, provided that it was looked up. -/
def written? (n : String) : Option String :=
  (LateImport.answer? h.late n).or
    (if h.context.isWritten d.1 d.2 n then h.context.replacement? n else none)

/-- **What becomes of references to type parameters** in the symbol `x` of the declaration `d`. -/
structure Shadows (x : Symbol) : Prop where
  /-- The type parameters of the declaration itself are never replaced. -/
  own : ∀ n ∈ h.context.declaredParameters h.statement, h.written? d n = none
  /-- Those of its methods are replaced only if the declaration refers to the name elsewhere. -/
  elsewhere : ∀ n, (h.written? d n).isSome = true →
    ∃ r ∈ d.2, r.strip.name = n ∧ ¬h.context.LiesIn h.statement r n
  /-- If nothing is written for its name, a reference to a type parameter stays as it is. -/
  kept : ∀ r ∈ d.2, ∀ l, r.strip.location? = some l →
    h.context.LiesIn h.statement r r.strip.name → h.written? d r.strip.name = none →
      (∀ m, x.mentions? r.strip.name = some m → m.replacement = none) ∧
        x.WritesAt r.strip.name l none
  /-- What is written for its name replaces the reference to the type parameter, too. -/
  lost : ∀ r ∈ d.2, ∀ l, r.strip.location? = some l → Draft.isRejected r.name = false →
    h.context.LiesIn h.statement r r.strip.name → ∀ new, h.written? d r.strip.name = some new →
      (∃ m, x.mentions? r.strip.name = some m ∧ l ∈ m.locations ∧ m.replacement = some new) ∧
        x.WritesAt r.strip.name l (some new)

variable {h d} {scope : Scope} {id : SymbolId} {x : Symbol} {n : String}

section Explains

variable (he : h.Explains scope id x) (hb : h.context.IsBoundAs d h.bound)

include he hb

theorem Explains.get?_table (n : String) : x.table.get? n =
    if h.context.placesOf d.1 d.2 n = [] then none
    else some ⟨h.written? d n, .ofList (h.context.placesOf d.1 d.2 n)⟩ := by
  rw [he.symbol, Symbol.get?_table_learnAll, show h.bound.symbol.table.get? n = _ from
    hb.mentions n, Context.mentions?]
  split_ifs <;> simp [written?, *]

theorem Explains.mem_met_of_written (hn : (h.written? d n).isSome = true) :
    n ∈ (h.context.met d.1 d.2).map Reference.name := by
  rw [written?, Option.isSome_or, Bool.or_eq_true] at hn
  rcases hn with hn | hn
  · obtain ⟨l, hl, rfl⟩ := List.mem_map.mp (LateImport.isSome_answer?.mp hn)
    exact (hb.deferred_met (he.deferral l hl)).1
  · split_ifs at hn with hw
    · exact Context.mem_met_of_isWritten hw
    · cases hn

/-- A name that is replaced is referred to outside of the constructs that declare it. -/
theorem Explains.elsewhere (hd : d ∈ h.context.declarations h.statement)
    (hn : (h.written? d n).isSome = true) :
    ∃ r ∈ d.2, r.strip.name = n ∧ ¬h.context.LiesIn h.statement r n := by
  obtain ⟨t, ht, rfl⟩ := List.mem_map.mp (he.mem_met_of_written hb hn)
  obtain ⟨r, hr, rfl, hout⟩ :=
    Context.exists_of_mem_opened hd (Reference.firsts_subset _ ht)
  exact ⟨r, hr, rfl, hout⟩

theorem Explains.mem_placesOf {r : Reference} {l : Span} (hr : r ∈ d.2)
    (hl : r.strip.location? = some l) (hrej : Draft.isRejected r.name = false)
    (hn : (h.written? d r.strip.name).isSome = true) :
    l ∈ h.context.placesOf d.1 d.2 r.strip.name := by
  obtain ⟨t, ht, hname⟩ := List.mem_map.mp (he.mem_met_of_written hb hn)
  obtain ⟨hself, hbuiltin, -⟩ := Context.name_of_mem_met ht
  rw [hname] at hself hbuiltin
  have htracked : r.tracked? h.context d.1 = some r.strip := by
    refine if_neg ?_
    rw [hrej, Scope.isBuiltin, decide_eq_true_iff]
    simp [hself, hbuiltin]
  refine List.mem_filterMap.mpr ⟨r.strip, List.mem_filter.mpr ⟨?_, by simp⟩, hl⟩
  exact List.mem_filterMap.mpr ⟨r, hr, htracked⟩

theorem Explains.replacement_of_get?_table {m : Mentions} (hm : x.table.get? n = some m) :
    m.replacement = h.written? d n := by
  rw [he.get?_table hb] at hm
  split_ifs at hm
  cases hm
  rfl

/-- **References to type parameters**, in a symbol with a past. -/
theorem Explains.shadows (hd : d ∈ h.context.declarations h.statement) : h.Shadows d x := by
  have hbytes : ∀ {r : Reference} {l : Span}, r.location? = some l → l.start < l.stop :=
    fun hl => by simpa [Span.IsEmpty] using (Option.filter_eq_some_iff.mp hl).2
  refine ⟨fun n hn => ?_, fun n => he.elsewhere hb hd, fun r hr l hl _ hno => ?_,
    fun r hr l hl hrej _ new hnew => ?_⟩
  · rw [← Option.not_isSome_iff_eq_none]
    intro hsome
    obtain ⟨r, -, -, hout⟩ := he.elsewhere hb hd hsome
    exact hout (.declaration hn)
  · have hnone : ∀ m, x.mentions? r.strip.name = some m → m.replacement = none :=
      fun m hm => (he.replacement_of_get?_table hb hm).trans hno
    exact ⟨hnone, Symbol.writesAt (hbytes hl) hnone nofun⟩
  · have hsome : ∀ m, x.mentions? r.strip.name = some m → m.replacement = some new :=
      fun m hm => (he.replacement_of_get?_table hb hm).trans hnew
    have hmem := he.mem_placesOf hb hr hl hrej (hnew ▸ rfl)
    obtain ⟨m, hm, hlm⟩ : ∃ m, x.mentions? r.strip.name = some m ∧ l ∈ m.locations := by
      rw [Symbol.mentions?, he.get?_table hb, if_neg (List.ne_nil_of_mem hmem)]
      exact ⟨_, rfl, Roster.mem_ofList.mpr hmem⟩
    exact ⟨⟨m, hm, hlm, hsome m hm⟩, Symbol.writesAt (hbytes hl) hsome fun _ _ => ⟨m, hm, hlm⟩⟩

end Explains

end Past

/-! ## Runs -/

namespace History

/-- **Type parameters in every run.** The place of a reference to a type parameter is replaced iff
something is written for its name. That is never so for the type parameters of the declaration
itself, and for those of its methods only if the declaration refers to the name elsewhere. -/
theorem shadows_run (options : Options) {actions : List Action} (hf : ∀ a ∈ actions, a.IsFresh)
    {id : SymbolId} {x : Symbol} (hx : (run options actions).project.symbol? id = some x) :
    ∃ (past : Past) (d : Symbol × List Reference), Knows options actions past.context ∧
      past.bound ∈ (past.context.bind past.statement).1 ∧
      x = past.bound.symbol.learnAll past.late ∧
      d ∈ past.context.declarations past.statement ∧ past.context.IsBoundAs d past.bound ∧
      past.Shadows d x := by
  obtain ⟨_, _, past, -, -, hk, he⟩ :=
    (recalls_run options hf).past (lists_run options actions) hx
  obtain ⟨d, hd, hb⟩ := he.declared
  exact ⟨past, d, hk, he.bound, he.symbol, hd, hb, he.shadows hb hd⟩

/-- A class with two methods, of which the first has a type parameter `T`, and a class `T`. The
second method has a parameter of the given type. -/
def twoMethods (second : String) : Tree :=
  Tree.link
    { file := "c.avt"
      source := "class C \x7b a<T>(x: T) \x7b\x7d b(x: " ++ second ++ ") \x7b\x7d \x7d\nclass T \x7b\x7d"
      nodes := #[⟨.identifier "C", ⟨6, 7⟩, none⟩,
        ⟨.identifier "a", ⟨10, 11⟩, none⟩, ⟨.identifier "T", ⟨12, 13⟩, none⟩,
        ⟨.typeParameter (some 2) none none, ⟨12, 13⟩, none⟩,
        ⟨.identifier "x", ⟨15, 16⟩, none⟩, ⟨.identifier "T", ⟨18, 19⟩, none⟩,
        ⟨.typeReference (some 5) [], ⟨18, 19⟩, none⟩,
        ⟨.field .parameter {} { name := some 4, annotation := some 6 }, ⟨15, 19⟩, none⟩,
        ⟨.block [], ⟨21, 23⟩, none⟩,
        ⟨.function .method { name := some 1, typeParameters := [some 3], parameters := [some 7],
                             body := some 8 }, ⟨10, 23⟩, none⟩,
        ⟨.identifier "b", ⟨24, 25⟩, none⟩, ⟨.identifier "x", ⟨26, 27⟩, none⟩,
        ⟨.identifier second, ⟨29, 30⟩, none⟩, ⟨.typeReference (some 12) [], ⟨29, 30⟩, none⟩,
        ⟨.field .parameter {} { name := some 11, annotation := some 13 }, ⟨26, 30⟩, none⟩,
        ⟨.block [], ⟨32, 34⟩, none⟩,
        ⟨.function .method { name := some 10, parameters := [some 14], body := some 15 },
          ⟨24, 34⟩, none⟩,
        ⟨.classLike .classDeclaration { name := some 0, members := [some 9, some 16] },
          ⟨0, 36⟩, none⟩,
        ⟨.identifier "T", ⟨43, 44⟩, none⟩,
        ⟨.classLike .classDeclaration { name := some 18 }, ⟨37, 47⟩, none⟩,
        ⟨.sourceFile [some 17, some 19], ⟨0, 47⟩, none⟩] } 20

/-- The project with these classes. -/
def methodsUnit (second : String) : History :=
  run {} [.bind (twoMethods second) { uri := "c.avt", path := ["app"] }]

theorem fresh_methodsUnit (second : String) : ∀ a ∈ [Action.bind (twoMethods second)
    { uri := "c.avt", path := ["app"] }], a.IsFresh := by
  intro a ha
  rw [List.mem_singleton.mp ha]
  exact fun _ => rfl

theorem shadows_methodsUnit :
    ∃ x, (methodsUnit "U").project.symbol? ⟨0, 0⟩ = some x ∧
      x.compiled = "class C \x7b a<T>(x: T) \x7b\x7d b(x: U) \x7b\x7d \x7d" ∧
      (methodsUnit "U").project.store.names.byQualifiedName? "app.T" none = some ⟨1, 0⟩ ∧
      ∃ (past : Past) (d : Symbol × List Reference),
        past.context.IsBoundAs d past.bound ∧ past.Shadows d x := by
  obtain ⟨hx, ht⟩ :
      ((methodsUnit "U").project.symbol? ⟨0, 0⟩).map Symbol.compiled =
        some "class C \x7b a<T>(x: T) \x7b\x7d b(x: U) \x7b\x7d \x7d" ∧
      (methodsUnit "U").project.store.names.byQualifiedName? "app.T" none = some ⟨1, 0⟩ := by
    rw [methodsUnit, run_eq rfl]
    decide +kernel
  obtain ⟨x, hx, hc⟩ := Option.map_eq_some_iff.mp hx
  obtain ⟨past, d, -, -, -, -, hb, hs⟩ := shadows_run {} (fresh_methodsUnit "U") hx
  exact ⟨x, hx, hc, ht, past, d, hb, hs⟩

/-- Where the second method refers to the class `T`, the type parameter of the first is replaced,
too. -/
theorem not_writesAt_methodsUnit :
    ∃ x c m, (methodsUnit "T").project.symbol? ⟨0, 0⟩ = some x ∧ x.classInfo = some c ∧
      c.method? "a" = some m ∧ m.typeParameters = ["T"] ∧ m.span.Contains ⟨18, 19⟩ ∧
      x.source? ⟨18, 19⟩ = some "T" ∧ x.IsAlone "T" ⟨18, 19⟩ ∧
      x.memberText? "a" = some "a<T>(x: app.T) \x7b\x7d" ∧ ¬x.WritesAt "T" ⟨18, 19⟩ none := by
  have hsource : ((methodsUnit "T").project.symbol? ⟨0, 0⟩).map (fun x =>
      [x.source? ⟨10, 18⟩, x.source? ⟨18, 19⟩, x.source? ⟨19, 23⟩]) =
        some [some "a<T>(x: ", some "T", some ") \x7b\x7d"] := by
    rw [methodsUnit, run_eq rfl]
    decide +kernel
  have hrender : ((methodsUnit "T").project.symbol? ⟨0, 0⟩).map (fun x => (x.memberText? "a",
      [x.render ⟨10, 23⟩ true, x.render ⟨10, 18⟩ true, x.render ⟨19, 23⟩ true])) =
        some (some "a<T>(x: app.T) \x7b\x7d", ["a<T>(x: app.T) \x7b\x7d", "a<T>(x: ", ") \x7b\x7d"]) := by
    rw [methodsUnit, run_eq rfl]
    decide +kernel
  have htable : ((methodsUnit "T").project.symbol? ⟨0, 0⟩).map (fun x =>
      x.table.entries.map fun e => (e.1, e.2.locations.toList)) =
        some [("T", [⟨18, 19⟩, ⟨29, 30⟩])] := by
    rw [methodsUnit, run_eq rfl]
    decide +kernel
  have hclass : ((methodsUnit "T").project.symbol? ⟨0, 0⟩).map (fun x => x.classInfo.map fun c =>
      ((c.method? "a").map fun m => (m.typeParameters, m.span), c.modifierChanges.values)) =
        some (some (some (["T"], ⟨10, 23⟩), [])) := by
    rw [methodsUnit, run_eq rfl]
    decide +kernel
  obtain ⟨x, hx, hsource⟩ := Option.map_eq_some_iff.mp hsource
  rw [hx, Option.map_some, Option.some.injEq] at hrender htable hclass
  simp only [Prod.mk.injEq, List.cons.injEq, and_true, Option.map_eq_some_iff]
    at hsource hrender hclass
  obtain ⟨hbefore, hword, hafter⟩ := hsource
  obtain ⟨hmember, hr, hr₁, hr₂⟩ := hrender
  obtain ⟨c, hc, ⟨m, hm, ht, hspan⟩, hmod⟩ := hclass
  have halone : x.IsAlone "T" ⟨18, 19⟩ := by
    refine ⟨fun n m hn l hl => ?_, fun c' hc' r hr => ?_⟩
    · have he : (n, m.locations.toList) ∈ [("T", [(⟨18, 19⟩ : Span), ⟨29, 30⟩])] :=
        htable ▸ List.mem_map_of_mem (Table.mem_entries.mpr hn)
      simp only [List.mem_singleton, Prod.mk.injEq] at he
      change l ∈ m.locations.toList at hl
      rw [he.2, List.mem_cons, List.mem_singleton] at hl
      rcases hl with rfl | rfl
      · exact .inl ⟨he.1, rfl⟩
      · exact .inr (.inr ⟨by decide, by decide⟩)
    · obtain rfl : c = c' := Option.some.inj (hc.symm.trans hc')
      rw [hmod] at hr
      cases hr
  refine ⟨x, c, m, hx, hc, hm, ht, ?_, hword, halone, hmember, fun hno => ?_⟩
  · rw [hspan]
    decide
  · have htext := @hno 10 23 true _ _ _ halone hbefore hword hafter
    rw [hr, hr₁, hr₂] at htext
    exact absurd htext (by decide)

end History

end Bindery
