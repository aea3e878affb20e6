import Bindery.Proofs.Binding.Supplied
import Bindery.Proofs.Project.Unit

/-!
# Binding a unit twice

A unit is bound with an import that waits, and with the import known from the start. The two
sessions give out the same ids, and their symbols stand side by side.

* `Sibling`, `Siblings`: two symbols of one id, and what waits for the first.
* `Session.Twin`: the two sessions.
* **`Session.Twin.take`**, **`Session.Twin.bindStatement`**: one symbol, one statement.
* **`Project.twin_session`**: all statements of a unit.
-/

namespace Bindery

/-! ## Stores without references -/

namespace Store

theorem enroll_of_bare {s t : Store} (h : s.bare = t.bare) {x y : Symbol} (hxy : x.bare = y.bare)
    (withShort : Bool) :
    (s.enroll x withShort).1.bare = (t.enroll y withShort).1.bare ∧
      (s.enroll x withShort).2.1 = (t.enroll y withShort).2.1 := by
  have hs := Arena.map_insert Symbol.bare s.symbols x
  have ht := Arena.map_insert Symbol.bare t.symbols y
  have hsym : s.symbols.map Symbol.bare = t.symbols.map Symbol.bare := congrArg Store.symbols h
  rw [hsym, hxy, ← ht, Prod.mk.injEq] at hs
  obtain ⟨harena, hid⟩ := hs
  refine ⟨?_, hid⟩
  show Store.mk ((s.symbols.insert x).1.map _) _ = Store.mk ((t.symbols.insert y).1.map _) _
  rw [harena]
  congr 1
  show (s.names.register x.name x.qualified (s.symbols.insert x).2 withShort).1 =
    (t.names.register y.name y.qualified (t.symbols.insert y).2 withShort).1
  rw [names_of_bare h, hid, Symbol.name_of_bare hxy, Symbol.qualified_of_bare hxy]

end Store

/-! ## Siblings -/

/-- Two symbols of one id: in the first `name` may wait in this queue, in the second it is known. -/
def Sibling (name target source : String) (written : Bool) (queue : List WaitingReference)
    (id : SymbolId) (a c : Symbol) : Prop :=
  (Symbol.Even name a c ∧ queue.filter (·.symbol = id) = []) ∨
    ∃ strong placed, queue.filter (·.symbol = id) = [⟨id, strong, placed⟩] ∧
      Symbol.Ahead name ⟨target, .otherUnit source, strong⟩ written a c

/-- The symbols of these ids in two stores. -/
def Siblings (name target source : String) (queue : List WaitingReference) (s s' : Store) :
    List SymbolId → List Bool → Prop :=
  List.Forall₂ fun id written => ∃ a c, s.symbol? id = some a ∧ s'.symbol? id = some c ∧
    Sibling name target source written queue id a c

section Sibling

variable {name target source : String} {written : Bool} {queue : List WaitingReference}
  {id : SymbolId} {a c : Symbol}

theorem Sibling.waits_iff (h : Sibling name target source written queue id a c) :
    queue.filter (·.symbol = id) ≠ [] ↔ a.loaded.get? name = some none := by
  rcases h with ⟨he, hq⟩ | ⟨_, _, hq, ha⟩
  · rw [hq]
    exact iff_of_false (fun hne => hne rfl) he.settled
  · rw [hq]
    exact iff_of_true (List.cons_ne_nil _ _) ha.waits

theorem Sibling.append (h : Sibling name target source written queue id a c)
    {more : List WaitingReference} (hm : ∀ r ∈ more, r.symbol ≠ id) :
    Sibling name target source written (queue ++ more) id a c := by
  have hq : (queue ++ more).filter (·.symbol = id) = queue.filter (·.symbol = id) := by
    have hnil : more.filter (·.symbol = id) = [] :=
      List.filter_eq_nil_iff.mpr fun r hr => by simpa using hm r hr
    rw [List.filter_append, hnil, List.append_nil]
  rw [Sibling, hq]
  exact h

theorem Sibling.settle (h : Sibling name target source written queue id a c) {n t src : String}
    {parent : Option SymbolId} (hn : n ≠ name) (hs : src ≠ source) (rs : List WaitingReference) :
    Sibling name target source written queue id (rs.foldl (Store.settled n t src parent) a)
      (rs.foldl (Store.settled n t src parent) c) := by
  induction rs generalizing a c with
  | nil => exact h
  | cons r rs ih =>
    refine ih ?_
    rcases h with ⟨he, hq⟩ | ⟨strong, placed, hq, ha⟩
    · exact .inl ⟨he.settle hn t parent r, hq⟩
    · refine .inr ⟨strong, placed, hq, ha.settle hn t parent r fun strong' he => hs ?_⟩
      simp only [Dependency.mk.injEq, Origin.otherUnit.injEq] at he
      exact he.2.1

end Sibling

/-- **Another late import** is found in both stores. -/
theorem Siblings.settleAll {name target source : String} {queue : List WaitingReference}
    {s s' : Store} {ids : List SymbolId} {ws : List Bool}
    (h : Siblings name target source queue s s' ids ws) {n src : String} (t : String)
    (parent : Option SymbolId) {rs : List WaitingReference} (hs : src ≠ source)
    (hn : n = name → ∀ r ∈ rs, r.symbol ∉ ids) :
    Siblings name target source queue (s.settleAll n t src parent rs)
      (s'.settleAll n t src parent rs) ids ws := by
  induction h with
  | nil => exact .nil
  | @cons id written ids ws hw _ ih =>
    refine .cons ?_ (ih fun e r hr hm => hn e r hr (List.mem_cons_of_mem _ hm))
    obtain ⟨a, c, ha, hc, hac⟩ := hw
    refine ⟨_, _, by rw [Store.symbol?_settleAll, ha, Option.map_some],
      by rw [Store.symbol?_settleAll, hc, Option.map_some], ?_⟩
    by_cases hname : n = name
    · -- An import of that name in another unit: none of these symbols waits for it.
      have hnil : rs.filter (·.symbol = id) = [] := by
        refine List.filter_eq_nil_iff.mpr fun r hr => ?_
        have hne : r.symbol ≠ id := fun e => hn hname r hr (e ▸ List.mem_cons_self)
        simpa using hne
      rwa [hnil]
    · exact hac.settle hname hs _

section Pair

variable {name target source : String} {written : Bool} {b b' : Bound}
  (h : Bound.Pair name target source written b b')

include h

theorem Bound.Pair.bare : b.symbol.bare = b'.symbol.bare := by
  rcases h.symbols with ⟨he, -⟩ | ⟨_, _, -, ha⟩
  · exact he.bare
  · exact ha.bare

/-- The symbols of a pair are siblings once their references wait under an id. -/
theorem Bound.Pair.sibling {queue : List WaitingReference} {id : SymbolId}
    (hq : ∀ r ∈ queue, r.symbol ≠ id) :
    Sibling name target source written (queue ++ (b.deferred.filter (·.name = name)).map
      fun d => ⟨id, d.strong, d.placed⟩) id b.symbol b'.symbol := by
  have hold : queue.filter (·.symbol = id) = [] :=
    List.filter_eq_nil_iff.mpr fun r hr => by simpa using hq r hr
  have hown : ∀ ds : List Deferral, (ds.map fun d =>
      (⟨id, d.strong, d.placed⟩ : WaitingReference)).filter (·.symbol = id) =
        ds.map fun d => ⟨id, d.strong, d.placed⟩ :=
    fun ds => List.filter_eq_self.mpr fun r hr => by
      obtain ⟨d, -, rfl⟩ := List.mem_map.mp hr
      simp
  rw [Sibling, List.filter_append, hold, List.nil_append, hown]
  rcases h.symbols with ⟨he, hn⟩ | ⟨strong, placed, hn, ha⟩
  · exact .inl ⟨he, by rw [hn, List.map_nil]⟩
  · exact .inr ⟨strong, placed, by rw [hn, List.map_singleton], ha⟩

end Pair

theorem Siblings.enroll {name target source : String} {queue more : List WaitingReference}
    {s s' : Store} {roll roll' : List Listing} {ids : List SymbolId} {written : List Bool}
    (h : Siblings name target source queue s s' ids written) (hl : s.Lists roll)
    (hl' : s'.Lists roll') {x y : Symbol} {withShort : Bool}
    (hid : (s'.enroll y withShort).2.1 = (s.enroll x withShort).2.1)
    (hm : ∀ r ∈ more, r.symbol = (s.enroll x withShort).2.1) {w : Bool}
    (hs : Sibling name target source w (queue ++ more) (s.enroll x withShort).2.1 x y) :
    Siblings name target source (queue ++ more) (s.enroll x withShort).1 (s'.enroll y withShort).1
      (ids ++ [(s.enroll x withShort).2.1]) (written ++ [w]) := by
  have hfresh := hl.symbol?_enroll_fresh x withShort
  have hget := hl.get?_enroll x withShort
  have hget' := hl'.get?_enroll y withShort
  rw [hid] at hget'
  refine List.rel_append (h.imp fun k w => ?_) (.cons ⟨x, y, ?_, ?_, hs⟩ .nil)
  · rintro ⟨a, c, ha, hc, hac⟩
    have hk : k ≠ (s.enroll x withShort).2.1 := fun e => by
      rw [e, hfresh] at ha
      cases ha
    refine ⟨a, c, ?_, ?_, hac.append fun r hr e => hk (e ▸ hm r hr)⟩
    · rw [hget, if_neg hk, ha]
    · rw [hget', if_neg hk, hc]
  · rw [hget, if_pos rfl]
  · rw [hget', if_pos rfl]

/-! ## Sessions -/

namespace Project

/-- **The sessions in which a unit is bound twice**: in the first `name` waits for `source`, in the
second it is known to mean `target`. -/
structure Session.Twin (store : Store) (roll : List Listing) (u : Scope)
    (name target source : String) (written : List Bool) (s s' : Session) : Prop where
  first : s.Extends store roll (u.addWaiting name source)
  second : s'.Extends store roll (u.addImport name target source)
  ids : s'.ids = s.ids
  bare : s'.store.bare = s.store.bare
  waiting : s'.scope.waiting = s.scope.waiting.erase name
  queue : s.Owns name
  others : ∀ id, id ∉ s.ids → s'.store.symbol? id = s.store.symbol? id
  siblings : Siblings name target source (s.scope.queueOf name) s.store s'.store s.ids written

/-- For every declaration of the statements, whether `name` is looked up at its first place or
later. -/
def Session.written (tree : Tree) (options : Options) (name : String) :
    Session → List Slot → List Bool
  | _, [] => []
  | s, statement :: statements =>
    (((s.context tree options).declarations statement).map fun d =>
      (s.context tree options).isWritten d.1 d.2 name) ++
        written tree options name (s.bindStatement tree options statement) statements

section Session

variable {store : Store} {roll : List Listing} {u : Scope} {name target source : String}
  {ws : List Bool} {s s' : Session}

theorem Session.twin_start (hl : store.Lists roll) (hw : u.waiting.get? name = none) :
    Twin store roll u name target source [] { store, scope := u.addWaiting name source }
      { store, scope := u.addImport name target source } := by
  refine ⟨extends_start hl _, extends_start hl _, rfl, rfl, ?_, ?_, fun _ _ => rfl, .nil⟩
  · show u.waiting = (u.waiting.insert name _).erase name
    have hk : name ∉ u.waiting.keys := Table.get?_eq_none_iff.mp hw
    have hself : u.waiting.keys.filter (· ≠ name) = u.waiting.keys :=
      List.filter_eq_self.mpr fun n hn => by simpa using ne_of_mem_of_not_mem hn hk
    refine Table.ext_get? ?_ fun k => ?_
    · rw [Table.keys_erase, Table.keys_insert, if_neg hk, List.filter_append, hself]
      simp
    · rw [Table.get?_erase, Table.get?_insert]
      split_ifs with hk'
      · rw [hk', hw]
      · rfl
  · intro r hr
    rw [Scope.queueOf] at hr
    simp [Scope.addWaiting, Table.get?_insert] at hr

theorem Session.Twin.contains_waiting (h : Twin store roll u name target source ws s s') :
    s.scope.waiting.contains name = true := by
  rw [Scope.contains_waiting_of_drained h.first.scope]
  simp [Scope.addWaiting, Table.contains, Table.get?_insert]

theorem Session.Twin.take (h : Twin store roll u name target source ws s s') {w : Bool}
    {b b' : Bound} (hb : Bound.Pair name target source w b b') (hu : b.symbol.uri = u.uri) :
    Twin store roll u name target source (ws ++ [w]) (s.take b) (s'.take b') := by
  have hu' : b'.symbol.uri = u.uri := (Symbol.uri_of_bare hb.bare).symm.trans hu
  have hlib : s'.scope.isLibrary = s.scope.isLibrary :=
    (Scope.isLibrary_of_drained h.second.scope).trans
      (Scope.isLibrary_of_drained h.first.scope).symm
  obtain ⟨hbare, hid⟩ := Store.enroll_of_bare h.bare hb.bare.symm (!s.scope.isLibrary)
  have hget := h.first.lists.get?_enroll b.symbol (!s.scope.isLibrary)
  have hget' := h.second.lists.get?_enroll b'.symbol (!s.scope.isLibrary)
  have hnew := h.first.lists.fresh_not_mem b.symbol (!s.scope.isLibrary)
  rw [hid] at hget'
  have hids : (s'.take b').ids = (s.take b).ids := by
    rw [s'.ids_take, s.ids_take, hlib, hid, h.ids]
  have hq := s.scope.queueOf_awaitAll (s.store.enroll b.symbol (!s.scope.isLibrary)).2.1
    b.deferred h.contains_waiting
  have hsym : ∀ {ds : List Deferral} {id : SymbolId}, ∀ r ∈ ds.map fun d =>
      (⟨id, d.strong, d.placed⟩ : WaitingReference), r.symbol = id := fun r hr => by
    obtain ⟨d, -, rfl⟩ := List.mem_map.mp hr
    rfl
  refine ⟨h.first.take hu, h.second.take hu', hids, ?_, ?_, h.queue.take b, fun k hk => ?_, ?_⟩
  · rw [s'.store_take, s.store_take, hlib, hbare]
  · rw [s'.scope_take, s.scope_take, hlib, hid, hb.deferred]
    exact s.scope.waiting_awaitAll_erase _ b.deferred h.waiting
  · rw [s.ids_take, List.mem_append, not_or, List.mem_singleton] at hk
    rw [s'.store_take, s.store_take, hlib, hget, hget', if_neg hk.2, if_neg hk.2, h.others k hk.1]
  · rw [s'.store_take, s.store_take, s.scope_take, s.ids_take, hlib, hq]
    refine h.siblings.enroll h.first.lists h.second.lists hid hsym
      (hb.sibling fun r hr e => hnew ?_)
    -- Whatever waits already belongs to a symbol of the session.
    rw [List.map_append, List.mem_append, Session.roll, List.map_map]
    exact .inr (List.mem_map.mpr ⟨r.symbol, h.queue r hr, e⟩)

theorem Session.Twin.takeAll {cx cx' : Context} (hcx : cx.Supplied name target source cx')
    {ds : List (Symbol × List Reference)} {bs bs' : List Bound}
    (hb : List.Forall₂ cx.IsBoundAs ds bs) (hb' : List.Forall₂ cx'.IsBoundAs ds bs')
    (hu : ∀ d ∈ ds, d.1.uri = u.uri) (h : Twin store roll u name target source ws s s') :
    Twin store roll u name target source
      (ws ++ ds.map fun d => cx.isWritten d.1 d.2 name)
      (bs.foldl Session.take s) (bs'.foldl Session.take s') := by
  induction hb generalizing ws s s' bs' with
  | nil =>
    cases hb'
    rwa [List.map_nil, List.append_nil]
  | @cons d b ds bs hd _ ih =>
    obtain ⟨b', bs', hd', hbs', rfl⟩ := List.forall₂_cons_left_iff.mp hb'
    rw [List.forall_mem_cons] at hu
    have hpair : Bound.Pair name target source (cx.isWritten d.1 d.2 name) b b' := hcx.pair hd hd'
    have ht := h.take hpair ((Symbol.uri_of_bare hd.bare).trans hu.1)
    rw [List.map_cons, List.append_cons, List.foldl_cons, List.foldl_cons]
    exact ih hbs' hu.2 ht

theorem Session.Twin.report (h : Twin store roll u name target source ws s s')
    (ds ds' : List Diagnostic) : Twin store roll u name target source ws
      { s with diagnostics := ds } { s' with diagnostics := ds' } :=
  ⟨⟨h.first.scope, h.first.lists, h.first.old⟩, ⟨h.second.scope, h.second.lists, h.second.old⟩,
    h.ids, h.bare, h.waiting, h.queue, h.others, h.siblings⟩

section Statement

variable (h : Session.Twin store roll u name target source ws s s') (tree : Tree)
  (options : Options)

include h

theorem Session.Twin.alike : (s.context tree options).Alike (s'.context tree options) := by
  have h₁ := h.first.scope
  have h₂ := h.second.scope
  have hnames := Store.names_of_bare h.bare
  refine ⟨rfl, rfl, ?_, ?_, ?_, fun n => ?_, fun n => ?_, fun n => ?_, fun n => ?_⟩
  · exact (Scope.uri_of_drained h₁).trans (Scope.uri_of_drained h₂).symm
  · exact (Scope.path_of_drained h₁).trans (Scope.path_of_drained h₂).symm
  · exact (Scope.kind_of_drained h₁).trans (Scope.kind_of_drained h₂).symm
  · exact (Scope.hasLocal_of_drained h₁ n).trans (Scope.hasLocal_of_drained h₂ n).symm
  · refine (Scope.hasImport_of_drained h₁ n).trans
      (Eq.trans ?_ (Scope.hasImport_of_drained h₂ n).symm)
    by_cases hn : n = name <;> simp [Scope.hasImport, Scope.addWaiting, Scope.addImport,
      Table.contains, Table.get?_insert, hn]
  · show s.store.names.byShortName? n = s'.store.names.byShortName? n
    rw [hnames]
  · show ((s.store.names.byShortName? n).bind s.store.symbol?).map Symbol.qualified =
      ((s'.store.names.byShortName? n).bind s'.store.symbol?).map Symbol.qualified
    rw [hnames]
    cases s.store.names.byShortName? n with
    | none => rfl
    | some id =>
      have hq := congrArg (Option.map Symbol.qualified) (Store.symbol?_of_bare h.bare id)
      rw [Option.map_map, Option.map_map] at hq
      exact hq.symm

theorem Session.Twin.supplied (hi : u.imports.get? name = none) :
    (s.context tree options).Supplied name target source (s'.context tree options) := by
  have h₁ := h.first.scope
  have h₂ := h.second.scope
  have hm₁ : ∀ n, (s.context tree options).scope.meaning n = _ := Scope.meaning_of_drained h₁
  have hm₂ : ∀ n, (s'.context tree options).scope.meaning n = _ := Scope.meaning_of_drained h₂
  refine ⟨fun n => ?_, rfl, fun n hn => ?_, ?_⟩
  · exact (Scope.isBuiltin_of_drained h₁ n).trans (Scope.isBuiltin_of_drained h₂ n).symm
  · rw [hm₁, hm₂]
    simp [Scope.meaning, Scope.addWaiting, Scope.addImport, Table.get?_insert, hn]
  · rw [hm₁, hm₂]
    by_cases hq : Scope.isQualified name = true
    · refine .inl ⟨?_, fun src => ?_⟩
      · simp [Scope.meaning, hq]
      · simp [Scope.meaning, hq]
    · cases hl : u.locals.get? name with
      | some t =>
        refine .inl ⟨?_, fun src => ?_⟩
        · simp [Scope.meaning, Scope.addWaiting, Scope.addImport, hq, hl]
        · simp [Scope.meaning, Scope.addWaiting, hq, hl]
      | none =>
        refine .inr ⟨?_, ?_⟩
        · simp [Scope.meaning, Scope.addWaiting, hq, hl, hi, Table.get?_insert]
        · simp [Scope.meaning, Scope.addImport, hq, hl, Table.get?_insert]

theorem Session.Twin.forall₂_bind (statement : Slot) :
    List.Forall₂ (s'.context tree options).IsBoundAs
      ((s.context tree options).declarations statement)
      ((s'.context tree options).bind statement).1 := by
  rw [(h.alike tree options).declarations]
  exact Context.forall₂_bind statement

theorem Session.Twin.uri_of_mem_declarations {statement : Slot} {d : Symbol × List Reference}
    (hd : d ∈ (s.context tree options).declarations statement) : d.1.uri = u.uri := by
  have hu : s.scope.uri = (u.addWaiting name source).uri := Scope.uri_of_drained h.first.scope
  exact (Context.unit_of_mem_declarations hd).1.trans hu

theorem Session.Twin.bindStatement (hi : u.imports.get? name = none) (statement : Slot) :
    Twin store roll u name target source
      (ws ++ ((s.context tree options).declarations statement).map
        fun d => (s.context tree options).isWritten d.1 d.2 name)
      (s.bindStatement tree options statement) (s'.bindStatement tree options statement) :=
  (h.report _ _).takeAll (h.supplied tree options hi)
    ((s.context tree options).forall₂_bind statement) (h.forall₂_bind tree options statement)
    fun _ hd => h.uri_of_mem_declarations tree options hd

end Statement

theorem Session.Twin.bindAll (h : Twin store roll u name target source ws s s') (tree : Tree)
    (options : Options) (hi : u.imports.get? name = none) (statements : List Slot) :
    Twin store roll u name target source
      (ws ++ s.written tree options name statements)
      (statements.foldl (Session.bindStatement tree options) s)
      (statements.foldl (Session.bindStatement tree options) s') := by
  induction statements generalizing ws s s' with
  | nil => rwa [Session.written, List.append_nil]
  | cons statement statements ih =>
    rw [Session.written, ← List.append_assoc]
    exact ih (h.bindStatement tree options hi statement)

end Session

/-- For every declaration of a unit, whether `name` is looked up at its first place or later. -/
def written (p : Project) (tree : Tree) (scope : Scope) (name : String) : List Bool :=
  Session.written tree p.options name { store := p.store, scope := p.unitScope tree scope }
    tree.statements

/-- Names can be declared before or after a scope is added to. -/
theorem declareAll_hom {f : Scope → Scope} (hf : ∀ s n,
    (f s).addLocal n ((f s).qualify n) = f (s.addLocal n (s.qualify n))) (tree : Tree) (s : Scope) :
    declareAll tree (f s) = f (declareAll tree s) := List.foldl_hom f hf

theorem unitScope_addWaiting (p : Project) (tree : Tree) (scope : Scope) (name source : String) :
    p.unitScope tree (scope.addWaiting name source) =
      (p.unitScope tree scope).addWaiting name source :=
  declareAll_hom (f := fun s => s.addWaiting name source) (fun _ _ => rfl) tree
    { scope with builtins := p.builtins }

theorem unitScope_addImport (p : Project) (tree : Tree) (scope : Scope)
    (name target source : String) : p.unitScope tree (scope.addImport name target source) =
      (p.unitScope tree scope).addImport name target source :=
  declareAll_hom (f := fun s => s.addImport name target source) (fun _ _ => rfl) tree
    { scope with builtins := p.builtins }

/-- **All statements of a unit.** -/
theorem twin_session {p : Project} (hl : p.store.Lists p.roll) (tree : Tree) {scope : Scope}
    {name : String} (target source : String) (hi : scope.imports.get? name = none)
    (hw : scope.waiting.get? name = none) :
    Session.Twin p.store p.roll (p.unitScope tree scope) name target source
      (p.written tree (scope.addWaiting name source) name)
      (p.session tree (scope.addWaiting name source))
      (p.session tree (scope.addImport name target source)) := by
  have hu : (p.unitScope tree scope).imports = scope.imports := by rw [unitScope, declareAll_eq]
  have hwaiting : (p.unitScope tree scope).waiting.get? name = none := by
    rw [waiting_unitScope, hw]
  have hstart : Session.Twin p.store p.roll (p.unitScope tree scope) name target source [] _ _ :=
    Session.twin_start hl hwaiting
  have hall := hstart.bindAll tree p.options (by rw [hu, hi]) tree.statements
  rwa [← unitScope_addWaiting, ← unitScope_addImport, List.nil_append] at hall

end Project

end Bindery
