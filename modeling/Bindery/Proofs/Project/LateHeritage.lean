import Bindery.Proofs.Binding.Lineage
import Bindery.Proofs.Project.Past
import Bindery.Proofs.Project.Late
import Bindery.Proofs.Project.Waiting

/-!
# Bases that are found late

A class of a unit is bound while one of its imports waits, and the import is found afterwards. Its
bases end up beside those of the same class bound with the import known from the start.

* `Context.Twin`: the two contexts in which a statement is bound.
* `Store.Paired`: symbols of the same ids in two stores, with something known of each pair.
* **`Project.Session.Twin.paired_bindAll`**: what is known of every declaration that is bound twice.
* `Symbol.Heirs`: a symbol and its counterpart, with the bases of both.
* `Project.Heirs`: the projects in which a unit is bound twice.
* **`Project.Heirs.supply`**, **`Project.heirs_bind`**: other imports are found; the unit is bound.
* **`History.late_bases`**: when the bases end up alike, in every project.
-/

namespace Bindery

/-! ## Two contexts -/

/-- **Contexts that differ in one import**: `name` waits for `source` in the first, where `scope`
says so, and is known to mean `target` in the second. -/
structure Context.Twin (tree : Tree) (options : Options) (scope : Scope)
    (name target source : String) (cx cx' : Context) : Prop where
  isOf : cx.IsOf tree options scope
  alike : cx.Alike cx'
  supplied : cx.Supplied name target source cx'
  contains : cx.scope.waiting.contains name = true
  waiting : cx'.scope.waiting = cx.scope.waiting.erase name

/-- A statement of the unit declares the symbol `x` as a class or interface. -/
structure Context.Declares (cx : Context) (statement : Slot) (kind : ClassKind) (parts : ClassParts)
    (x : Symbol) : Prop where
  mem : statement ∈ cx.tree.statements
  form : cx.tree.form? statement = some (.classLike kind parts)
  bound : ∃ b ∈ (cx.bind statement).1, b.symbol.bare = x.bare

/-- **A symbol and its counterpart** from a project where the import `name` is known to mean
`target`: if they are classes, their bases stand side by side. -/
def Symbol.Heirs (known : Context → Prop) (name target : String) (x y : Symbol) : Prop :=
  x.classInfo = none ∧ y.classInfo = none ∨
    ∃ cx statement kind parts c c', known cx ∧ cx.Declares statement kind parts x ∧
      x.classInfo = some c ∧ y.classInfo = some c' ∧
      cx.Kin x (cx.parameterNames parts.typeParameters) (parts.heritage.flatMap cx.inherited) name
        target c c'

section Heirs

variable {known : Context → Prop} {name target source : String} {x y : Symbol}

theorem Symbol.Heirs.learn (h : Symbol.Heirs known name target x y) {l : LateImport}
    (hl : l.name ≠ name) : Symbol.Heirs known name target (x.learn l) (y.learn l) := by
  rw [Symbol.Heirs, Symbol.classInfo_learn, Symbol.classInfo_learn]
  rcases h with ⟨hx, hy⟩ | ⟨cx, statement, kind, parts, c, c', hk, hd, hx, hy, hc⟩
  · rw [hx, hy]
    exact .inl ⟨rfl, rfl⟩
  · have hbare : x.bare = (x.learn l).bare := (Symbol.bare_learn x l).symm
    rw [hx, hy]
    refine .inr ⟨cx, statement, kind, parts, c.learn l, c'.learn l, hk, ⟨hd.mem, hd.form, ?_⟩, rfl,
      rfl, (hc.learn hl).of_bare hbare⟩
    rw [← hbare]
    exact hd.bound

theorem Symbol.Heirs.learnAll (h : Symbol.Heirs known name target x y) {ls : List LateImport}
    (hls : name ∉ ls.map LateImport.name) :
    Symbol.Heirs known name target (x.learnAll ls) (y.learnAll ls) := by
  induction ls generalizing x y with
  | nil => exact h
  | cons l ls ih =>
    rw [List.map_cons, List.mem_cons, not_or] at hls
    exact ih (h.learn (Ne.symm hls.1)) hls.2

/-- **A declaration that is bound twice.** -/
theorem Context.Twin.heirs {tree : Tree} {options : Options} {scope : Scope} {cx cx' : Context}
    (h : Context.Twin tree options scope name target source cx cx')
    (hlib : scope.isLibrary = false) (hk : known cx) {statement : Slot}
    (hs : statement ∈ tree.statements) {b b' : Bound} (hb : b ∈ (cx.bind statement).1)
    (hb' : b' ∈ (cx'.bind statement).1) (hbare : b.symbol.bare = b'.symbol.bare) :
    Symbol.Heirs known name target b.symbol b'.symbol := by
  have hclass := Symbol.isClassOrInterface_of_bare hbare
  by_cases hc : b.symbol.isClassOrInterface = true
  · have hlib₁ : cx.scope.isLibrary = false := (Scope.isLibrary_of_drained h.isOf.scope).trans hlib
    have hlib₂ : cx'.scope.isLibrary = false := h.alike.isLibrary.symm.trans hlib₁
    obtain ⟨kind, i, parts, ds, hform, hbind⟩ := Context.class_of_mem_bind hb hc
    obtain ⟨kind', i', parts', ds', hform', hbind'⟩ :=
      Context.class_of_mem_bind hb' (hclass.symm.trans hc)
    rw [← h.alike.tree, hform, Option.some.injEq, Form.classLike.injEq] at hform'
    obtain ⟨rfl, rfl⟩ := hform'
    obtain ⟨c, hc, hi, ha⟩ := Context.inherits_bindClass hlib₁ hbind
    obtain ⟨c', hc', hi', ha'⟩ := Context.inherits_bindClass hlib₂ hbind'
    have hinherited : cx'.inherited = cx.inherited := by
      funext clause
      rw [Context.inherited, Context.inherited, h.alike.tree]
    rw [← h.alike.parameterNames, hinherited] at hi' ha'
    rw [Context.awaitedBase?_of_bare hbare.symm] at ha'
    refine .inr ⟨cx, statement, kind, parts, c, c', hk, ⟨?_, hform, b, hb, rfl⟩, hc, hc', ?_⟩
    · rw [h.isOf.tree]
      exact hs
    · exact h.supplied.kin h.alike h.contains h.waiting hi (hi'.of_bare hbare.symm) ha ha'
  · have hnone : ∀ {z : Symbol}, z.isClassOrInterface ≠ true → z.classInfo = none := fun hz => by
      simpa [Symbol.isClassOrInterface] using hz
    exact .inl ⟨hnone hc, hnone (hclass ▸ hc)⟩

end Heirs

/-! ## Two sessions -/

/-- **The symbols of these ids in two stores** are there, and stand in a relation. -/
def Store.Paired (R : SymbolId → Symbol → Symbol → Prop) (s s' : Store) (ids : List SymbolId) :
    Prop :=
  ∀ id ∈ ids, ∃ x y, s.symbol? id = some x ∧ s'.symbol? id = some y ∧ R id x y

namespace Project

section Session

variable {store : Store} {roll : List Listing} {u : Scope} {name target source : String}
  {ws : List Bool} {s s' : Session} {R : SymbolId → Symbol → Symbol → Prop}

theorem Session.Twin.paired_take (h : Twin store roll u name target source ws s s')
    (hp : s.store.Paired R s'.store s.ids) {b b' : Bound} (hb : b.symbol.bare = b'.symbol.bare)
    (hR : ∀ id, R id b.symbol b'.symbol) :
    (s.take b).store.Paired R (s'.take b').store (s.take b).ids := by
  have hlib : s'.scope.isLibrary = s.scope.isLibrary :=
    (Scope.isLibrary_of_drained h.second.scope).trans
      (Scope.isLibrary_of_drained h.first.scope).symm
  obtain ⟨-, hid⟩ := Store.enroll_of_bare h.bare hb.symm (!s.scope.isLibrary)
  have hget := h.first.lists.get?_enroll b.symbol (!s.scope.isLibrary)
  have hget' := h.second.lists.get?_enroll b'.symbol (!s.scope.isLibrary)
  rw [hid] at hget'
  intro id hm
  rw [s.store_take, s'.store_take, hlib, hget, hget']
  rw [s.ids_take, List.mem_append, List.mem_singleton] at hm
  by_cases hnew : id = (s.store.enroll b.symbol !s.scope.isLibrary).2.1
  · rw [if_pos hnew, if_pos hnew]
    exact ⟨b.symbol, b'.symbol, rfl, rfl, hR id⟩
  · rw [if_neg hnew, if_neg hnew]
    exact hp id (hm.resolve_right hnew)

theorem Session.Twin.paired_takeAll {cx cx' : Context}
    (hcx : cx.Supplied name target source cx') {ds : List (Symbol × List Reference)}
    {bs bs' : List Bound} (hb : List.Forall₂ cx.IsBoundAs ds bs)
    (hb' : List.Forall₂ cx'.IsBoundAs ds bs') (hu : ∀ d ∈ ds, d.1.uri = u.uri)
    (hR : ∀ b ∈ bs, ∀ b' ∈ bs', b.symbol.bare = b'.symbol.bare → ∀ id, R id b.symbol b'.symbol)
    (h : Twin store roll u name target source ws s s') (hp : s.store.Paired R s'.store s.ids) :
    (bs.foldl Session.take s).store.Paired R (bs'.foldl Session.take s').store
      (bs.foldl Session.take s).ids := by
  induction hb generalizing ws s s' bs' with
  | nil =>
    cases hb'
    exact hp
  | @cons d b ds bs hd _ ih =>
    obtain ⟨b', bs', hd', hbs', rfl⟩ := List.forall₂_cons_left_iff.mp hb'
    rw [List.forall_mem_cons] at hu
    have hpair : Bound.Pair name target source (cx.isWritten d.1 d.2 name) b b' := hcx.pair hd hd'
    rw [List.foldl_cons, List.foldl_cons]
    refine ih hbs' hu.2
      (fun b hb b' hb' => hR b (List.mem_cons_of_mem _ hb) b' (List.mem_cons_of_mem _ hb'))
      (h.take hpair ((Symbol.uri_of_bare hd.bare).trans hu.1)) ?_
    exact h.paired_take hp hpair.bare (hR b List.mem_cons_self b' List.mem_cons_self hpair.bare)

theorem Session.Twin.contexts (h : Twin store roll u name target source ws s s') (tree : Tree)
    (options : Options) (hi : u.imports.get? name = none) :
    Context.Twin tree options (u.addWaiting name source) name target source
      (s.context tree options) (s'.context tree options) :=
  ⟨⟨rfl, rfl, h.first.scope⟩, h.alike tree options, h.supplied tree options hi,
    h.contains_waiting, h.waiting⟩

/-- **All statements**: what is known of every declaration that is bound in both contexts holds of
the symbols of the two sessions. -/
theorem Session.Twin.paired_bindAll (h : Twin store roll u name target source ws s s')
    (tree : Tree) (options : Options) (hi : u.imports.get? name = none) {statements : List Slot}
    (hR : ∀ cx cx' : Context,
      Context.Twin tree options (u.addWaiting name source) name target source cx cx' →
        ∀ statement ∈ statements, ∀ b ∈ (cx.bind statement).1, ∀ b' ∈ (cx'.bind statement).1,
          b.symbol.bare = b'.symbol.bare → ∀ id, R id b.symbol b'.symbol)
    (hp : s.store.Paired R s'.store s.ids) :
    (statements.foldl (Session.bindStatement tree options) s).store.Paired R
      (statements.foldl (Session.bindStatement tree options) s').store
      (statements.foldl (Session.bindStatement tree options) s).ids := by
  induction statements generalizing ws s s' with
  | nil => exact hp
  | cons statement statements ih =>
    -- The sessions stay twins, so the statements that follow are bound in such contexts again.
    refine ih (h.bindStatement tree options hi statement)
      (fun cx cx' hcx t ht => hR cx cx' hcx t (List.mem_cons_of_mem _ ht)) ?_
    exact (h.report _ _).paired_takeAll (h.supplied tree options hi)
      ((s.context tree options).forall₂_bind statement) (h.forall₂_bind tree options statement)
      (fun _ hd => h.uri_of_mem_declarations tree options hd)
      (hR _ _ (h.contexts tree options hi) statement List.mem_cons_self) hp

end Session

theorem paired_session {p : Project} (hl : p.store.Lists p.roll) (tree : Tree) {scope : Scope}
    {name : String} (target source : String) (hlib : scope.isLibrary = false)
    (hi : scope.imports.get? name = none) (hw : scope.waiting.get? name = none) :
    (p.session tree (scope.addWaiting name source)).store.Paired
      (fun _ => Symbol.Heirs (fun cx => cx.IsOf tree p.options
        (p.unitScope tree (scope.addWaiting name source))) name target)
      (p.session tree (scope.addImport name target source)).store
      (p.session tree (scope.addWaiting name source)).ids := by
  have hu : (p.unitScope tree scope).imports = scope.imports ∧
      (p.unitScope tree scope).isLibrary = scope.isLibrary := by
    rw [unitScope, declareAll_eq]
    exact ⟨rfl, rfl⟩
  have hstart : Session.Twin p.store p.roll (p.unitScope tree scope) name target source [] _ _ :=
    Session.twin_start hl (by rw [waiting_unitScope, hw])
  rw [session, session, unitScope_addWaiting, unitScope_addImport]
  refine hstart.paired_bindAll tree p.options (by rw [hu.1, hi])
    (fun cx cx' hcx statement hs b hb b' hb' hbare _ => ?_)
    fun id hid => absurd hid List.not_mem_nil
  exact hcx.heirs (hu.2.trans hlib) hcx.isOf hs hb hb' hbare

/-! ## Two projects -/

section Abreast

variable {uri name : String} {p p' : Project}

/-- **The symbols of the unit are told the same** of another import. -/
theorem Abreast.learnAll (h : Abreast uri name p p') {k n : String}
    (hk : ¬(k = uri ∧ n = name)) (t : String) {id : SymbolId} (hid : id ∈ p.idsIn uri) :
    ∃ ls : List LateImport, name ∉ ls.map LateImport.name ∧
      (p.supplyImport k n t).1.symbol? id = (p.symbol? id).map (·.learnAll ls) ∧
      (p'.supplyImport k n t).1.symbol? id = (p'.symbol? id).map (·.learnAll ls) := by
  have hw' := h.waiting_of_ne hk
  cases hw : p.waiting? k n with
  | none =>
    rw [supplyImport_of_none hw, supplyImport_of_none (hw'.trans hw)]
    exact ⟨[], List.not_mem_nil, Option.map_id'.symm, Option.map_id'.symm⟩
  | some w =>
    obtain ⟨u, hu, hq⟩ := Option.bind_eq_some_iff.mp hw
    obtain ⟨u', hu', hq'⟩ := Option.bind_eq_some_iff.mp (hw'.trans hw)
    have hsym := symbol?_supplyImport hu hq t id
    have hsym' := symbol?_supplyImport hu' hq' t id
    rw [lateParent_of_bare h.bare] at hsym'
    simp only [Symbol.foldl_settled] at hsym hsym'
    refine ⟨_, fun hm => ?_, hsym, hsym'⟩
    -- Where another unit waits for the same name, the symbols of this one do not wait with it.
    rw [List.map_map, List.mem_map] at hm
    obtain ⟨r, hr, rfl⟩ := hm
    obtain ⟨hr, hid'⟩ := List.mem_filter.mp hr
    have hne : k ≠ uri := fun e => hk ⟨e, rfl⟩
    exact h.foreign k w hne hw r hr (by rwa [of_decide_eq_true hid'])

end Abreast

/-- **Projects in which a unit is bound twice**: in the first its import `name` waits for `source`,
and these references wait for it; in the second it is known to mean `target`. -/
structure Heirs (known : Context → Prop) (uri name target source : String)
    (queue : List WaitingReference) (p p' : Project) : Prop where
  abreast : Abreast uri name p p'
  waiting : p.waiting? uri name = some ⟨source, queue⟩
  symbols : p.store.Paired (fun id x y =>
    (queue.filter (·.symbol = id) ≠ [] ↔ x.loaded.get? name = some none) ∧
      Symbol.Heirs known name target x y) p'.store (p.idsIn uri)

section Heirs

variable {known : Context → Prop} {uri name target source : String}
  {queue : List WaitingReference} {p p' : Project}

theorem Heirs.supply (h : Heirs known uri name target source queue p p') {k n : String}
    (hk : ¬(k = uri ∧ n = name)) (t : String) :
    Heirs known uri name target source queue (p.supplyImport k n t).1
      (p'.supplyImport k n t).1 := by
  refine ⟨h.abreast.supply hk t, (waiting?_supplyImport_of_ne hk t).trans h.waiting,
    fun id hid => ?_⟩
  rw [(completed_supplyImport p k n t).idsIn] at hid
  obtain ⟨x, y, hx, hy, hwaits, hxy⟩ := h.symbols id hid
  obtain ⟨ls, hls, hx', hy'⟩ := h.abreast.learnAll hk t hid
  refine ⟨x.learnAll ls, y.learnAll ls, hx'.trans (congrArg _ hx), hy'.trans (congrArg _ hy), ?_,
    hxy.learnAll hls⟩
  rw [hwaits, Symbol.get?_loaded_learnAll, LateImport.answer?_eq_none hls]
  rfl

theorem Heirs.resolveFound (h : Heirs known uri name target source queue p p') {work : List Found}
    (hs : ∀ f ∈ work, ¬(f.uri = uri ∧ f.name = name)) :
    Heirs known uri name target source queue (p.resolveFound work).1 (p'.resolveFound work).1 := by
  rw [resolveFound_eq, resolveFound_eq]
  induction work generalizing p p' with
  | nil => exact h
  | cons f work ih =>
    rw [List.forall_mem_cons] at hs
    exact ih (h.supply hs.1 f.target) hs.2

end Heirs

section Bind

variable {p : Project} {u : Scope} {name source : String}

theorem heirs_enter (hl : p.store.Lists p.roll) (ht : p.IsTidy) (tree : Tree) (target : String)
    (hlib : u.isLibrary = false) (hi : u.imports.get? name = none)
    (hw : u.waiting.get? name = none) : ∃ queue,
      Heirs (fun cx => cx.IsOf tree p.options (p.unitScope tree (u.addWaiting name source)))
        u.uri name target source queue (p.enter tree (u.addWaiting name source))
        (p.enter tree (u.addImport name target source)) := by
  have htwin := twin_enter hl hi hw tree target source ht
  obtain ⟨queue, hqueue, hsib⟩ := htwin.siblings
  refine ⟨queue, htwin.abreast, hqueue, fun id hid => ?_⟩
  have hids : (p.enter tree (u.addWaiting name source)).idsIn u.uri =
      (p.session tree (u.addWaiting name source)).ids := (idsIn_enter _).trans (if_pos rfl)
  obtain ⟨x, y, hx, hy, hxy⟩ := paired_session hl tree target source hlib hi hw id (hids ▸ hid)
  refine ⟨x, y, hx, hy, ?_, hxy⟩
  obtain ⟨i, hlt, rfl⟩ := List.mem_iff_getElem.mp hid
  obtain ⟨a, c, ha, -, hac⟩ := hsib.get hlt (hsib.length_eq ▸ hlt)
  obtain rfl : a = x := Option.some.inj (ha.symm.trans hx)
  exact hac.waits_iff

theorem exportedName?_of_awaited (hl : p.store.Lists p.roll) (ht : p.IsTidy) (tree : Tree)
    (hi : u.imports.get? name = none) (hw : u.waiting.get? name = none)
    (hwait : (p.bind tree (u.addWaiting name source)).1.awaited? u.uri name ≠ none) :
    ((p.unload u.uri).1.enter tree (u.addWaiting name source)).exportedName? source name =
      none := by
  have htwin := twin_enter (lists_unload hl) hi hw tree source source (ht.unload u.uri)
  obtain ⟨queue, hqueue, -⟩ := htwin.siblings
  by_contra hsome
  obtain ⟨t, hexp⟩ := Option.ne_none_iff_exists'.mp hsome
  refine hwait ?_
  rw [bind_eq, Project.awaited?, Option.map_eq_none_iff]
  exact waiting?_resolveFound _ (mem_findable hqueue (.inl rfl) hexp)

/-- **The unit is bound**, and other imports are found, in both projects. -/
theorem heirs_bind (hl : p.store.Lists p.roll) (ht : p.IsTidy) (tree : Tree) (target : String)
    (hlib : u.isLibrary = false) (hi : u.imports.get? name = none)
    (hw : u.waiting.get? name = none)
    (hwait : (p.bind tree (u.addWaiting name source)).1.awaited? u.uri name ≠ none) :
    ∃ queue, Heirs (fun cx => cx.IsOf tree p.options (p.unitScope tree (u.addWaiting name source)))
      u.uri name target source queue (p.bind tree (u.addWaiting name source)).1
      (p.bind tree (u.addImport name target source)).1 := by
  have hl₀ : (p.unload u.uri).1.store.Lists _ := lists_unload hl
  have hnone := exportedName?_of_awaited hl ht tree hi hw hwait
  obtain ⟨queue, h⟩ : ∃ queue, Heirs _ u.uri name target source queue _ _ :=
    heirs_enter hl₀ (ht.unload u.uri) tree target hlib hi hw
  have hoptions := settings_unload p u.uri
  rw [unitScope, hoptions.1, hoptions.2, ← unitScope] at h
  refine ⟨queue, ?_⟩
  rw [bind_eq, bind_eq, show (u.addImport name target source).uri = u.uri from rfl,
    show (u.addWaiting name source).uri = u.uri from rfl,
    findable_enter hl₀ hi hw tree target (ht.unload u.uri) get?_unload_self hnone]
  refine h.resolveFound fun f hf => ?_
  rintro ⟨hu, hn⟩
  obtain ⟨src, hsrc, hexp⟩ := awaited?_of_mem_findable hf
  rw [hu, hn, Project.awaited?, h.waiting, Option.map_some, Option.some.injEq] at hsrc
  rw [hn, ← hsrc, hnone] at hexp
  cases hexp

end Bind

theorem idsIn_bind_uri (p : Project) (tree : Tree) (scope : Scope) :
    (p.bind tree scope).1.idsIn scope.uri = (p.bind tree scope).2.1 := by
  rw [bind_eq, (completed_resolveFound _ _).idsIn, idsIn_enter, if_pos rfl, ids_bind]

end Project

/-! ## The import is found -/

/-- **How the bases of a symbol end up**, if it is a class: `a` is the symbol before its import
`name` is found to mean `target`, and `b` afterwards; `c` is the same symbol with the import known
from the start. -/
def Symbol.EndsBases (known : Context → Prop) (name target : String) (a b c : Symbol) : Prop :=
  a.classInfo = none ∧ b.classInfo = none ∧ c.classInfo = none ∨
    ∃ cx statement kind parts ca cb cc, known cx ∧ cx.Declares statement kind parts a ∧
      a.classInfo = some ca ∧ b.classInfo = some cb ∧ c.classInfo = some cc ∧
      cx.EndsBases a (cx.parameterNames parts.typeParameters) (parts.heritage.flatMap cx.inherited)
        name target ca cb cc

theorem Symbol.Heirs.ends {known : Context → Prop} {name target : String} {a c : Symbol}
    (h : Symbol.Heirs known name target a c) {ls : List LateImport}
    (hls : ∀ l ∈ ls, l.name = name ∧ l.target = target)
    (hw : ls ≠ [] ↔ a.loaded.get? name = some none) :
    Symbol.EndsBases known name target a (a.learnAll ls) c := by
  rcases h with ⟨ha, hc⟩ | ⟨cx, statement, kind, parts, ca, cc, hk, hd, ha, hc, hkin⟩
  · refine .inl ⟨ha, ?_, hc⟩
    have hbare := Symbol.isClassOrInterface_of_bare (Symbol.bare_learnAll a ls)
    simpa [Symbol.isClassOrInterface, ha] using hbare
  · obtain ⟨cb, hb, hbase, hextra, hinterfaces⟩ := Symbol.bases_learnAll a ls ha hls
    exact .inr ⟨cx, statement, kind, parts, ca, cb, cc, hk, hd, ha, hb, hc,
      hkin.ends hw hbase hextra hinterfaces⟩

theorem Project.Heirs.ends {known : Context → Prop} {uri name target source : String}
    {queue : List WaitingReference} {p p' : Project}
    (h : Project.Heirs known uri name target source queue p p') :
    ∀ id ∈ p.idsIn uri, ∃ a b c, p.symbol? id = some a ∧
      (p.supplyImport uri name target).1.symbol? id = some b ∧ p'.symbol? id = some c ∧
        Symbol.EndsBases known name target a b c := by
  intro id hid
  obtain ⟨a, c, ha, hc, hwaits, hac⟩ := h.symbols id hid
  obtain ⟨u, hu, hq⟩ := Option.bind_eq_some_iff.mp h.waiting
  have hb := Project.symbol?_supplyImport hu hq target id
  rw [show p.symbol? id = some a from ha, Option.map_some, Symbol.foldl_settled] at hb
  refine ⟨a, _, c, ha, hb, hc, hac.ends (fun l hl => ?_) ?_⟩
  · obtain ⟨r, -, rfl⟩ := List.mem_map.mp hl
    exact ⟨rfl, rfl⟩
  · rw [← hwaits, Ne, List.map_eq_nil_iff]

namespace History

/-- **Bases that are found late.** In every project, a unit is bound while its import `name` waits,
and the import is then found to mean `target`. The bases of its classes and interfaces are compared
with those of the same unit bound with the import known, and `Context.EndsBases` tells when they end
up alike. -/
theorem late_bases (options : Options) {actions : List Action} (hf : ∀ a ∈ actions, a.IsFresh)
    (tree : Tree) {u : Scope} {name source : String} (target : String)
    (hlib : u.isLibrary = false) (hi : u.imports.get? name = none)
    (hw : u.waiting.get? name = none)
    (hwait : ((run options actions).project.bind tree
      (u.addWaiting name source)).1.awaited? u.uri name ≠ none) :
    let p := (run options actions).project
    let late := p.bind tree (u.addWaiting name source)
    let early := p.bind tree (u.addImport name target source)
    early.2.1 = late.2.1 ∧ ∀ id ∈ late.2.1, ∃ a b c, late.1.symbol? id = some a ∧
      (late.1.supplyImport u.uri name target).1.symbol? id = some b ∧
      early.1.symbol? id = some c ∧
      Symbol.EndsBases (fun cx => cx.IsOf tree p.options
        (p.unitScope tree (u.addWaiting name source))) name target a b c := by
  intro p late early
  obtain ⟨queue, h⟩ := Project.heirs_bind (lists_run options actions) (isTidy_run options hf) tree
    target hlib hi hw hwait
  have hlate : late.1.idsIn u.uri = late.2.1 := p.idsIn_bind_uri tree (u.addWaiting name source)
  have hearly : early.1.idsIn u.uri = early.2.1 :=
    p.idsIn_bind_uri tree (u.addImport name target source)
  rw [← hlate, ← hearly]
  exact ⟨h.abreast.idsIn u.uri, h.ends⟩

/-- A class that implements an import. -/
def implementsTree : Tree :=
  Tree.link
    { file := "u.avt"
      source := "class C implements N {}"
      nodes := #[⟨.identifier "C", ⟨6, 7⟩, none⟩, ⟨.identifier "N", ⟨19, 20⟩, none⟩,
        ⟨.instantiation (some 1) [], ⟨19, 20⟩, none⟩,
        ⟨.heritage .implementing [some 2], ⟨8, 20⟩, none⟩,
        ⟨.classLike .classDeclaration { name := some 0, heritage := [some 3] }, ⟨0, 23⟩, none⟩,
        ⟨.sourceFile [some 4], ⟨0, 23⟩, none⟩] } 5

/-- The scope of its unit. -/
def implementsScope : Scope := { uri := "u.avt", path := [] }

theorem late_bases_implementsTree :
    (∀ a ∈ moduleActions, a.IsFresh) ∧ implementsScope.isLibrary = false ∧
      implementsScope.imports.get? "N" = none ∧ implementsScope.waiting.get? "N" = none ∧
      let p := (run {} moduleActions).project
      let late := p.bind implementsTree (implementsScope.addWaiting "N" "v.avt")
      let early := p.bind implementsTree (implementsScope.addImport "N" "Q" "v.avt")
      late.1.awaited? implementsScope.uri "N" ≠ none ∧ early.2.1 = late.2.1 ∧
        ∀ id ∈ late.2.1, ∃ a b c, late.1.symbol? id = some a ∧
          (late.1.supplyImport implementsScope.uri "N" "Q").1.symbol? id = some b ∧
          early.1.symbol? id = some c ∧
          Symbol.EndsBases (fun cx => cx.IsOf implementsTree p.options
            (p.unitScope implementsTree (implementsScope.addWaiting "N" "v.avt"))) "N" "Q"
            a b c := by
  have hf : ∀ a ∈ moduleActions, a.IsFresh := by
    intro a ha
    rw [moduleActions, List.mem_singleton] at ha
    subst ha
    exact fun n => rfl
  have hlib : implementsScope.isLibrary = false := by decide
  have hi : implementsScope.imports.get? "N" = none := by decide
  have hw : implementsScope.waiting.get? "N" = none := by decide
  have hwait : ((run {} moduleActions).project.bind implementsTree
      (implementsScope.addWaiting "N" "v.avt")).1.awaited? implementsScope.uri "N" ≠ none := by
    rw [run_eq rfl]
    decide +kernel
  exact ⟨hf, hlib, hi, hw, hwait, late_bases {} hf implementsTree "Q" hlib hi hw hwait⟩

/-- Where the import is found late, the class does not come to implement it. Known from the start,
it does. -/
theorem not_mem_interfaces_implementsTree :
    let p := (run {} []).project
    let late := (p.bind implementsTree (implementsScope.addWaiting "N" "v.avt")).1
    let early := (p.bind implementsTree (implementsScope.addImport "N" "Q" "v.avt")).1
    ∃ b c cb cc, (late.supplyImport "u.avt" "N" "Q").1.symbol? ⟨0, 0⟩ = some b ∧
      early.symbol? ⟨0, 0⟩ = some c ∧ b.classInfo = some cb ∧ c.classInfo = some cc ∧
      "Q" ∉ cb.interfaces ∧ "Q" ∈ cc.interfaces := by
  intro p late early
  have hinterfaces : (((late.supplyImport "u.avt" "N" "Q").1.symbol? ⟨0, 0⟩).bind fun b =>
      b.classInfo.map fun c => c.interfaces.toList,
        (early.symbol? ⟨0, 0⟩).bind fun c => c.classInfo.map fun c => c.interfaces.toList) =
      (some [], some ["Q"]) := by
    simp only [late, early, p]
    rw [run_eq rfl]
    decide +kernel
  rw [Prod.mk.injEq, Option.bind_eq_some_iff, Option.bind_eq_some_iff] at hinterfaces
  obtain ⟨⟨b, hb, hbi⟩, c, hc, hci⟩ := hinterfaces
  obtain ⟨cb, hcb, hb'⟩ := Option.map_eq_some_iff.mp hbi
  obtain ⟨cc, hcc, hc'⟩ := Option.map_eq_some_iff.mp hci
  refine ⟨b, c, cb, cc, hb, hc, hcb, hcc, ?_, ?_⟩
  · rw [Roster.mem_def, hb']
    exact List.not_mem_nil
  · rw [Roster.mem_def, hc']
    exact List.mem_singleton_self _

end History

end Bindery
