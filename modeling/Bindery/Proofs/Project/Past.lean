import Bindery.Proofs.Binding.Bound
import Bindery.Proofs.Project.Tidy
import Bindery.Proofs.Symbol.Late

/-!
# The past of a symbol

A symbol of a project was bound from a statement of its unit, and has been told since of imports
that it waited for. What waits in the queues of its unit is what it still has to be told.

* `Past`, `Past.Explains`: where a symbol was bound, and which imports were found afterwards.
* **`Past.explains_start`**, **`Past.Explains.supply`**: a symbol is bound, an import found.
* `BoundUnit.Recalls`: every symbol of a unit has a past.
* `Project.Recalls.bind`, `Project.Recalls.unload`, `Project.Recalls.supply`: this is kept.
* `History.Knows`: the contexts in which the units of a run were bound.
* **`History.recalls_run`**: after every run, every symbol has a past.
-/

namespace Bindery

/-- What is remembered of a symbol. -/
structure Past where
  context : Context
  statement : Slot
  bound : Bound
  late : List LateImport := []

/-- What a deferral becomes under an id. -/
def Deferral.waiting (id : SymbolId) (d : Deferral) : WaitingReference := ⟨id, d.strong, d.placed⟩

/-- **The past of the symbol `x`**, whose id is `id`, in a unit that has this scope now. -/
structure Past.Explains (h : Past) (scope : Scope) (id : SymbolId) (x : Symbol) : Prop where
  bound : h.bound ∈ (h.context.bind h.statement).1
  symbol : x = h.bound.symbol.learnAll h.late
  library : scope.isLibrary = h.context.scope.isLibrary
  deferral : ∀ l ∈ h.late, l.deferral ∈ h.bound.deferred
  nodup : (h.late.map LateImport.name).Nodup
  /-- An import was found in the unit that it waited for. -/
  source : ∀ l ∈ h.late,
    (h.context.scope.waiting.get? l.name).map WaitingImport.source = some l.source
  waits : ∀ n w, scope.waiting.get? n = some w →
    (h.context.scope.waiting.get? n).map WaitingImport.source = some w.source ∧
      n ∉ h.late.map LateImport.name ∧
        w.queue.filter (·.symbol = id) =
          (h.bound.deferred.filter (·.name = n)).map (Deferral.waiting id)

section Explains

variable {h : Past} {scope : Scope} {id : SymbolId} {x : Symbol}

theorem Past.Explains.declared (he : h.Explains scope id x) :
    ∃ d ∈ h.context.declarations h.statement, h.context.IsBoundAs d h.bound :=
  Context.exists_of_mem_bind he.bound

theorem Past.Explains.await (he : h.Explains scope id x) {id' : SymbolId} (hne : id' ≠ id)
    (ds : List Deferral) : h.Explains (scope.awaitAll id' ds) id x := by
  refine ⟨he.bound, he.symbol, ?_, he.deferral, he.nodup, he.source, fun n w hw => ?_⟩
  · rw [Scope.isLibrary_of_drained (scope.drained_awaitAll id' ds), he.library]
  · rw [Scope.get?_waiting_awaitAll] at hw
    obtain ⟨v, hv, rfl⟩ := Option.map_eq_some_iff.mp hw
    obtain ⟨hs, hn, hq⟩ := he.waits n v hv
    refine ⟨hs, hn, ?_⟩
    have hnil : ((ds.filter (·.name = n)).map (Deferral.waiting id')).filter (·.symbol = id) =
        [] := by
      refine List.filter_eq_nil_iff.mpr fun r hr => ?_
      obtain ⟨d, -, rfl⟩ := List.mem_map.mp hr
      rwa [decide_eq_true_iff]
    show (v.queue ++ (ds.filter (·.name = n)).map (Deferral.waiting id')).filter _ = _
    rw [List.filter_append, hnil, List.append_nil, hq]

theorem Past.Explains.dropStale (he : h.Explains scope id x) {alive : SymbolId → Bool}
    (hid : alive id = true) : h.Explains (scope.dropStale alive) id x := by
  refine ⟨he.bound, he.symbol, he.library, he.deferral, he.nodup, he.source, fun n w hw => ?_⟩
  rw [Scope.dropStale, Table.get?_mapValues] at hw
  obtain ⟨v, hv, rfl⟩ := Option.map_eq_some_iff.mp hw
  obtain ⟨hs, hn, hq⟩ := he.waits n v hv
  refine ⟨hs, hn, ?_⟩
  rw [← hq, List.filter_filter]
  refine List.filter_congr fun r _ => ?_
  by_cases hr : r.symbol = id
  · simp [hr, hid]
  · simp [hr]

/-- **An import is found**: the symbol is told of it if it has waited for it. -/
theorem Past.Explains.supply (he : h.Explains scope id x) {name : String} {w : WaitingImport}
    (hw : scope.waiting.get? name = some w) (target : String) (parent : Option SymbolId) :
    ∃ late, Past.Explains { h with late := h.late ++ late }
      (Project.foundScope scope name target w.source) id
      ((w.queue.filter (·.symbol = id)).foldl (Store.settled name target w.source parent) x) := by
  obtain ⟨hs, hn, hq⟩ := he.waits name w hw
  obtain ⟨d, -, hd⟩ := he.declared
  set ds := h.bound.deferred.filter (·.name = name) with hds
  have hname : ∀ d ∈ ds, d.name = name := fun d hd => by
    simpa using (List.mem_filter.mp hd).2
  have hnames : (ds.map fun d => (⟨d, target, w.source, parent⟩ : LateImport)).map
      LateImport.name = ds.map Deferral.name := by
    rw [List.map_map]
    rfl
  refine ⟨ds.map fun d => ⟨d, target, w.source, parent⟩,
    { bound := he.bound
      symbol := ?symbol
      library := he.library
      deferral := fun l hl => ?deferral
      nodup := ?nodup
      source := fun l hl => ?source
      waits := fun n w' hw' => ?waits }⟩
  case symbol =>
    rw [hq, List.foldl_map, Symbol.learnAll_append, ← he.symbol, Symbol.learnAll, List.foldl_map]
    refine List.foldl_ext _ _ _ fun y d hd => ?_
    rw [Symbol.learn, show LateImport.name ⟨d, target, w.source, parent⟩ = name from hname d hd]
    rfl
  case deferral =>
    rcases List.mem_append.mp hl with hl | hl
    · exact he.deferral l hl
    · obtain ⟨d, hd, rfl⟩ := List.mem_map.mp hl
      exact (List.mem_filter.mp hd).1
  case nodup =>
    show ((h.late ++ _).map LateImport.name).Nodup
    rw [List.map_append, List.nodup_append, hnames]
    refine ⟨he.nodup, hd.nodup_deferred.sublist (List.filter_sublist.map _), ?_⟩
    rintro a ha b hb rfl
    obtain ⟨d, hd, rfl⟩ := List.mem_map.mp hb
    exact hn (hname d hd ▸ ha)
  case source =>
    rcases List.mem_append.mp hl with hl | hl
    · exact he.source l hl
    · obtain ⟨d, hd, rfl⟩ := List.mem_map.mp hl
      rw [show LateImport.name ⟨d, target, w.source, parent⟩ = name from hname d hd]
      exact hs
  case waits =>
    -- The name itself waits no longer, and the others were left as they were.
    change (scope.waiting.erase name).get? n = some w' at hw'
    rw [Table.get?_erase] at hw'
    split_ifs at hw' with hne
    obtain ⟨hs', hn', hq'⟩ := he.waits n w' hw'
    refine ⟨hs', ?_, hq'⟩
    show n ∉ (h.late ++ _).map LateImport.name
    rw [List.map_append, List.mem_append, hnames, not_or]
    refine ⟨hn', fun hm => ?_⟩
    obtain ⟨d, hd, rfl⟩ := List.mem_map.mp hm
    exact hne (hname d hd)

end Explains

/-- **A symbol that has just been bound** has not been told of anything yet. -/
theorem Past.explains_start {cx : Context} {statement : Slot} {b : Bound} {scope : Scope}
    {id : SymbolId} (hb : b ∈ (cx.bind statement).1)
    (hlib : scope.isLibrary = cx.scope.isLibrary)
    (hsrc : ∀ n, (cx.scope.waiting.get? n).map WaitingImport.source =
      (scope.waiting.get? n).map WaitingImport.source)
    (hnew : ∀ n, ∀ r ∈ scope.queueOf n, r.symbol ≠ id) :
    Past.Explains ⟨cx, statement, b, []⟩ (scope.awaitAll id b.deferred) id b.symbol := by
  refine
    { bound := hb
      symbol := rfl
      library := ?library
      deferral := fun l hl => nomatch hl
      nodup := List.nodup_nil
      source := fun l hl => nomatch hl
      waits := fun n w hw => ?waits }
  case library => rw [Scope.isLibrary_of_drained (scope.drained_awaitAll _ _), hlib]
  case waits =>
    rw [Scope.get?_waiting_awaitAll] at hw
    obtain ⟨v, hv, rfl⟩ := Option.map_eq_some_iff.mp hw
    refine ⟨by rw [hsrc, hv]; rfl, List.not_mem_nil, ?_⟩
    -- Of what waits now, nothing but its own references belongs to it.
    have hold : v.queue.filter (·.symbol = id) = [] := by
      refine List.filter_eq_nil_iff.mpr fun r hr => ?_
      simpa using hnew n r (Scope.queueOf_of_get? hv ▸ hr)
    have hown : ((b.deferred.filter (·.name = n)).map (Deferral.waiting id)).filter
        (·.symbol = id) = (b.deferred.filter (·.name = n)).map (Deferral.waiting id) := by
      refine List.filter_eq_self.mpr fun r hr => ?_
      obtain ⟨d, -, rfl⟩ := List.mem_map.mp hr
      simp [Deferral.waiting]
    show (v.queue ++ (b.deferred.filter (·.name = n)).map (Deferral.waiting id)).filter _ = _
    rw [List.filter_append, hold, List.nil_append, hown]

/-! ## Units -/

/-- **Every symbol of a unit has a past**, in a context that is known, and nothing else waits. -/
structure BoundUnit.Recalls (known : Context → Prop) (store : Store) (u : BoundUnit) : Prop where
  owns : ∀ n, ∀ r ∈ u.scope.queueOf n, r.symbol ∈ u.symbols
  past : ∀ id ∈ u.symbols, ∃ x h, store.symbol? id = some x ∧ known h.context ∧
    Past.Explains h u.scope id x

namespace BoundUnit.Recalls

variable {known : Context → Prop} {store store' : Store} {u : BoundUnit}

theorem congr (h : u.Recalls known store)
    (hs : ∀ id ∈ u.symbols, ∀ x, store.symbol? id = some x → store'.symbol? id = some x) :
    u.Recalls known store' := by
  refine ⟨h.owns, fun id hid => ?_⟩
  obtain ⟨x, past, hx, hp⟩ := h.past id hid
  exact ⟨x, past, hs id hid x hx, hp⟩

/-- **An import is found** that symbols of the unit may have waited for. -/
theorem supply (h : u.Recalls known store) {name : String} {w : WaitingImport}
    (hw : u.scope.waiting.get? name = some w) (target : String) (parent : Option SymbolId) :
    BoundUnit.Recalls known (store.settleAll name target w.source parent w.queue)
      { u with scope := Project.foundScope u.scope name target w.source } := by
  refine ⟨fun n r hr => ?_, fun id hid => ?_⟩
  · refine h.owns n r ?_
    change r ∈ (((u.scope.waiting.erase name).get? n).map WaitingImport.queue).getD [] at hr
    rw [Table.get?_erase] at hr
    split_ifs at hr
    · cases hr
    · exact hr
  · obtain ⟨x, past, hx, hk, hp⟩ := h.past id hid
    obtain ⟨late, hl⟩ := hp.supply hw target parent
    refine ⟨_, { past with late := past.late ++ late }, ?_, hk, hl⟩
    rw [Store.symbol?_settleAll, hx, Option.map_some]

theorem settleAll (h : u.Recalls known store) {queue : List WaitingReference}
    (hq : ∀ r ∈ queue, r.symbol ∉ u.symbols) (name target source : String)
    (parent : Option SymbolId) :
    u.Recalls known (store.settleAll name target source parent queue) := by
  refine h.congr fun id hid x hx => ?_
  have hnil : queue.filter (·.symbol = id) = [] :=
    List.filter_eq_nil_iff.mpr fun r hr => by
      have hne : r.symbol ≠ id := fun e => hq r hr (e ▸ hid)
      simpa using hne
  rw [Store.symbol?_settleAll, hx, hnil]
  rfl

end BoundUnit.Recalls

/-! ## Sessions -/

/-- The contexts in which the declarations of a unit with this scope are bound. -/
structure Context.IsOf (tree : Tree) (options : Options) (scope : Scope) (cx : Context) : Prop where
  tree : cx.tree = tree
  options : cx.options = options
  scope : cx.scope.drained = scope.drained

namespace Project

/-- The unit that is being bound, as far as it is. -/
def Session.unit (s : Session) : BoundUnit := ⟨s.scope, s.ids⟩

section Session

variable {known : Context → Prop} {store : Store} {roll : List Listing} {scope : Scope}
  {s : Session}

theorem Session.recalls_take (h : s.unit.Recalls known s.store)
    (hs : s.Extends store roll scope) {cx : Context} (hk : known cx)
    (hlib : s.scope.isLibrary = cx.scope.isLibrary)
    (hsrc : ∀ n, (cx.scope.waiting.get? n).map WaitingImport.source =
      (s.scope.waiting.get? n).map WaitingImport.source)
    {statement : Slot} {b : Bound} (hb : b ∈ (cx.bind statement).1) :
    (s.take b).unit.Recalls known (s.take b).store := by
  set id := (s.store.enroll b.symbol !s.scope.isLibrary).2.1 with hid
  have hfresh : s.store.symbol? id = none := hs.lists.symbol?_enroll_fresh _ _
  have hnew : id ∉ s.ids := fun hm => by
    obtain ⟨x, _, hx, -⟩ := h.past id hm
    rw [hfresh] at hx
    cases hx
  refine ⟨fun n => Session.Owns.take (h.owns n) b, fun k hk' => ?_⟩
  change k ∈ s.ids ++ [id] at hk'
  show ∃ x past, (s.store.enroll b.symbol _).1.symbol? k = some x ∧ _ ∧
    Past.Explains past (s.scope.awaitAll id b.deferred) k x
  rw [hs.lists.get?_enroll]
  rcases List.mem_append.mp hk' with hm | hm
  · have hne : k ≠ id := ne_of_mem_of_not_mem hm hnew
    obtain ⟨x, past, hx, hkn, hp⟩ := h.past k hm
    exact ⟨x, past, by rwa [if_neg hne], hkn, hp.await hne.symm _⟩
  · obtain rfl := List.mem_singleton.mp hm
    refine ⟨b.symbol, ⟨cx, statement, b, []⟩, if_pos rfl, hk, ?_⟩
    exact Past.explains_start hb hlib hsrc fun n r hr => ne_of_mem_of_not_mem (h.owns n r hr) hnew

theorem Session.recalls_takeAll (h : s.unit.Recalls known s.store)
    (hs : s.Extends store roll scope) {cx : Context} (hk : known cx)
    (hcx : cx.scope.drained = scope.drained) {statement : Slot} {bs : List Bound}
    (hb : ∀ b ∈ bs, b ∈ (cx.bind statement).1) :
    (bs.foldl Session.take s).unit.Recalls known (bs.foldl Session.take s).store := by
  induction bs generalizing s with
  | nil => exact h
  | cons b bs ih =>
    rw [List.forall_mem_cons] at hb
    have hd : s.scope.drained = cx.scope.drained := hs.scope.trans hcx.symm
    have hu : b.symbol.uri = scope.uri :=
      (Context.uri_of_mem_bind hb.1).trans (Scope.uri_of_drained hcx)
    have ht := Session.recalls_take h hs hk (Scope.isLibrary_of_drained hd)
      (fun n => (Scope.source_of_drained hd n).symm) hb.1
    exact ih ht (hs.take hu) hb.2

theorem Session.recalls_bindStatement (h : s.unit.Recalls known s.store)
    (hs : s.Extends store roll scope) {tree : Tree} {options : Options}
    (hk : ∀ cx : Context, cx.IsOf tree options scope → known cx) (statement : Slot) :
    (s.bindStatement tree options statement).unit.Recalls known
      (s.bindStatement tree options statement).store := by
  have hs' : ({ s with diagnostics := s.diagnostics ++
      ((s.context tree options).bind statement).2 } : Session).Extends store roll scope :=
    ⟨hs.scope, hs.lists, hs.old⟩
  exact Session.recalls_takeAll (s := { s with diagnostics := s.diagnostics ++
      ((s.context tree options).bind statement).2 }) h hs' (hk _ ⟨rfl, rfl, hs.scope⟩) hs.scope
    fun b hb => hb

theorem Session.recalls_bindAll (h : s.unit.Recalls known s.store)
    (hs : s.Extends store roll scope) {tree : Tree} {options : Options}
    (hk : ∀ cx : Context, cx.IsOf tree options scope → known cx) (statements : List Slot) :
    (statements.foldl (Session.bindStatement tree options) s).unit.Recalls known
      (statements.foldl (Session.bindStatement tree options) s).store := by
  induction statements generalizing s with
  | nil => exact h
  | cons statement statements ih =>
    exact ih (Session.recalls_bindStatement h hs hk statement)
      (hs.bindStatement tree options statement)

end Session

/-! ## Projects -/

/-- **Every symbol of a project has a past.** -/
def Recalls (known : Context → Prop) (p : Project) : Prop :=
  ∀ uri u, p.units.get? uri = some u → u.Recalls known p.store

variable {known : Context → Prop} {p : Project} {tree : Tree} {scope : Scope}

theorem Recalls.enter (h : p.Recalls known) (hl : p.store.Lists p.roll) (hf : scope.IsFresh)
    (hk : ∀ cx : Context, cx.IsOf tree p.options (p.unitScope tree scope) → known cx) :
    (p.enter tree scope).Recalls known := by
  intro k u hu
  rw [Project.enter, Table.get?_insert] at hu
  split_ifs at hu with hne
  · cases hu
    have hstart : Session.unit { store := p.store, scope := p.unitScope tree scope }
        |>.Recalls known p.store := by
      refine ⟨fun n r hr => ?_, fun id hid => by cases hid⟩
      change r ∈ (p.unitScope tree scope).queueOf n at hr
      rw [Scope.queueOf, waiting_unitScope, ← Scope.queueOf, hf n] at hr
      cases hr
    exact Session.recalls_bindAll hstart (Session.extends_start hl _) hk tree.statements
  · exact (h k u hu).congr fun id _ x hx => symbol?_enter hl hx

theorem get?_units_unload {uri k : String} {u : BoundUnit}
    (hu : (p.unload uri).1.units.get? k = some u) : ∃ v, p.units.get? k = some v ∧
      (u = v ∨ u = BoundUnit.retain (p.unload uri).1.store v) := by
  unfold Project.unload at hu ⊢
  cases hg : p.units.get? uri with
  | none =>
    rw [hg] at hu
    exact ⟨u, hu, .inl rfl⟩
  | some unit =>
    rw [hg] at hu
    change (Table.mapValues _ _).get? k = some u at hu
    rw [Table.get?_mapValues, Table.get?_erase] at hu
    split_ifs at hu
    · cases hu
    · obtain ⟨v, hv, rfl⟩ := Option.map_eq_some_iff.mp hu
      exact ⟨v, hv, .inr rfl⟩

theorem BoundUnit.recalls_retain {store : Store} {u : BoundUnit} (h : u.Recalls known store) :
    (BoundUnit.retain store u).Recalls known store := by
  refine ⟨fun n r hr => h.owns n r ?_, fun id hid => ?_⟩
  · change r ∈ (u.scope.dropStale store.symbols.contains).queueOf n at hr
    rw [Scope.queueOf_dropStale] at hr
    exact List.mem_of_mem_filter hr
  · obtain ⟨x, past, hx, hk, hp⟩ := h.past id hid
    refine ⟨x, past, hx, hk, hp.dropStale ?_⟩
    rw [Arena.contains, show store.symbols.get? id = some x from hx]
    rfl

theorem Recalls.unload (h : p.Recalls known) (hl : p.store.Lists p.roll) (uri : String) :
    (p.unload uri).1.Recalls known := by
  intro k u hu
  have hk : k ≠ uri := by
    rintro rfl
    rw [get?_unload_self] at hu
    cases hu
  obtain ⟨v, hv, huv⟩ := get?_units_unload hu
  have hstay : v.Recalls known (p.unload uri).1.store := by
    refine (h k v hv).congr fun id hid x hx => ?_
    refine (symbol?_unload id).trans ((if_neg fun hm => ?_).trans hx)
    obtain ⟨w, hw, hm⟩ := mem_idsIn.mp hm
    exact hk (eq_of_mem_symbols hl hv hw hid hm)
  rcases huv with rfl | rfl
  · exact hstay
  · exact BoundUnit.recalls_retain hstay

theorem Recalls.supply (h : p.Recalls known) (hl : p.store.Lists p.roll) (uri name target : String) :
    (p.supplyImport uri name target).1.Recalls known := by
  cases hw : p.waiting? uri name with
  | none => rwa [supplyImport_of_none hw]
  | some w =>
    obtain ⟨u, hu, hw⟩ := Option.bind_eq_some_iff.mp hw
    intro k v hv
    rw [units_supplyImport hu hw, Table.get?_modify] at hv
    rw [store_supplyImport hu hw]
    split_ifs at hv with hk
    · rw [hk, hu, Option.map_some, Option.some.injEq] at hv
      rw [← hv]
      exact (h uri u hu).supply hw target _
    · refine (h k v hv).settleAll (fun r hr hm => ?_) _ _ _ _
      have hown := (h uri u hu).owns name r (Scope.queueOf_of_get? hw ▸ hr)
      exact hk (eq_of_mem_symbols hl hv hu hm hown)

theorem Recalls.resolveFound (h : p.Recalls known) (hl : p.store.Lists p.roll)
    (work : List Found) : (p.resolveFound work).1.Recalls known := by
  rw [resolveFound_eq]
  induction work generalizing p with
  | nil => exact h
  | cons f work ih =>
    exact ih (h.supply hl f.uri f.name f.target) ((completed_supplyImport _ _ _ _).lists hl)

theorem Recalls.past (h : p.Recalls known) (hl : p.store.Lists p.roll) {id : SymbolId} {x : Symbol}
    (hx : p.symbol? id = some x) : ∃ uri u past, p.units.get? uri = some u ∧ id ∈ u.symbols ∧
      known past.context ∧ Past.Explains past u.scope id x := by
  have hlive : id ∈ p.roll.map Listing.id := (hl.live id).mp (by
    rw [show p.store.symbol? id = some x from hx]
    rfl)
  obtain ⟨e, he, rfl⟩ := List.mem_map.mp hlive
  obtain ⟨u, hu, hid, -⟩ := mem_roll.mp he
  obtain ⟨y, past, hy, hk, hp⟩ := (h e.uri u hu).past e.id hid
  rw [show p.store.symbol? e.id = some x from hx, Option.some.injEq] at hy
  exact ⟨e.uri, u, past, hu, hid, hk, hy ▸ hp⟩

theorem settings_unload (p : Project) (uri : String) : (p.unload uri).1.options = p.options ∧
    (p.unload uri).1.builtins = p.builtins := by
  unfold Project.unload
  cases p.units.get? uri <;> exact ⟨rfl, rfl⟩

theorem settings_bind (p : Project) (tree : Tree) (scope : Scope) :
    (p.bind tree scope).1.options = p.options ∧ (p.bind tree scope).1.builtins = p.builtins := by
  have hc := completed_resolveFound ((p.unload scope.uri).1.enter tree scope)
    (((p.unload scope.uri).1.enter tree scope).findable scope.uri)
  rw [bind_eq, hc.options, hc.builtins]
  exact settings_unload p scope.uri

/-- **A unit is bound**, in place of its last version. -/
theorem Recalls.bind (h : p.Recalls known) (hl : p.store.Lists p.roll) (hf : scope.IsFresh)
    (hk : ∀ cx : Context, cx.IsOf tree p.options (declareAll tree { scope with
      builtins := p.builtins }) → known cx) : (p.bind tree scope).1.Recalls known := by
  have ho := settings_unload p scope.uri
  have hl₀ : (p.unload scope.uri).1.store.Lists _ := lists_unload hl
  rw [bind_eq]
  refine ((h.unload hl scope.uri).enter hl₀ hf fun cx hcx => hk cx ?_).resolveFound
    (lists_enter hl₀ get?_unload_self) _
  rwa [unitScope, ho.1, ho.2] at hcx

end Project

/-! ## Runs -/

namespace History

/-- **The contexts of a run**: the declarations of a unit are bound with what the scope that it was
given says about its names. -/
def Knows (options : Options) (actions : List Action) (cx : Context) : Prop :=
  ∃ tree scope, Action.bind tree scope ∈ actions ∧
    cx.IsOf tree options
      (Project.declareAll tree { scope with builtins := options.allBuiltins })

theorem settings_step (h : History) (a : Action) : (h.step a).project.options = h.project.options ∧
    (h.step a).project.builtins = h.project.builtins := by
  cases a with
  | bind tree scope => exact Project.settings_bind h.project tree scope
  | unload uri => exact Project.settings_unload h.project uri
  | supply uri name target =>
    have hc := Project.completed_supplyImport h.project uri name target
    exact ⟨hc.options, hc.builtins⟩

theorem settings_run (options : Options) (actions : List Action) :
    (run options actions).project.options = options ∧
      (run options actions).project.builtins = options.allBuiltins :=
  run_induction (P := fun h => h.project.options = options ∧
    h.project.builtins = options.allBuiltins) ⟨rfl, rfl⟩ fun h a _ hp =>
      ⟨(settings_step h a).1.trans hp.1, (settings_step h a).2.trans hp.2⟩

/-- **After every run, every symbol has a past.** -/
theorem recalls_run (options : Options) {actions : List Action} (hf : ∀ a ∈ actions, a.IsFresh) :
    (run options actions).project.Recalls (Knows options actions) := by
  refine (run_induction (P := fun h => (h.project.options = options ∧
    h.project.builtins = options.allBuiltins) ∧ h.project.store.Lists h.project.roll ∧
      h.project.Recalls (Knows options actions)) ⟨⟨rfl, rfl⟩, Store.lists_empty, ?_⟩
    fun h a ha hp => ?_).2.2
  · intro uri u hu
    cases hu
  obtain ⟨ho, hl, hr⟩ := hp
  have hs := settings_step h a
  have hfresh := hf a ha
  refine ⟨⟨hs.1.trans ho.1, hs.2.trans ho.2⟩, ?_⟩
  cases a with
  | bind tree scope =>
    refine ⟨Project.lists_bind hl tree scope, hr.bind hl hfresh fun cx hcx => ?_⟩
    rw [ho.1, ho.2] at hcx
    exact ⟨tree, scope, ha, hcx⟩
  | unload uri => exact ⟨Project.lists_unload hl, hr.unload hl uri⟩
  | supply uri name target =>
    have hc := Project.completed_supplyImport h.project uri name target
    exact ⟨hc.lists hl, hr.supply hl uri name target⟩

end History

end Bindery
