import Bindery.Project.Query
import Bindery.Proofs.Graph.Imports
import Bindery.Proofs.Project.Run

/-!
# Binding and unloading again

A new unit that is unloaded leaves a project as it was, but for its qualified names: whoever held one
of them before does not get it back.

* `Session.Enters`: how many symbols a session adds, and the qualified names that it takes.
* `Project.SuppliesOnly`: only imports of one unit are found.
* `Project.Tracks`: the graph knows of imports of bound units only; every action keeps it.
* `Project.Restored`: nothing but qualified names has changed.
* **`History.unload_bind`**: what a unit leaves behind, in every project.
-/

namespace Bindery

namespace Project

/-! ## The symbols of a new unit -/

/-- **What a session adds** to the number of symbols and to the qualified names of a store. -/
structure Session.Enters (store : Store) (s : Session) : Prop where
  count : s.store.symbols.count = store.symbols.count + s.ids.length
  kept : ∀ q, s.store.names.qualified.get? q = store.names.qualified.get? q ∨
    ∃ id ∈ s.ids, s.store.names.qualified.get? q = some id
  taken : ∀ id ∈ s.ids, ∀ q, (s.store.symbol? id).map Symbol.qualified = some q →
    ∃ k ∈ s.ids, s.store.names.qualified.get? q = some k

section Session

variable {store : Store} {roll : List Listing} {scope : Scope} {s : Session}

theorem Session.Enters.take (h : s.Enters store) (hs : s.Extends store roll scope) (b : Bound) :
    (s.take b).Enters store := by
  set id := (s.store.enroll b.symbol !s.scope.isLibrary).2.1 with hid
  have hget : ∀ q, (s.take b).store.names.qualified.get? q =
      if q = b.symbol.qualified then some id else s.store.names.qualified.get? q := fun q =>
    NameTable.get?_qualified_register _ q
  have hlast : id ∈ (s.take b).ids := List.mem_append_right _ (List.mem_singleton_self id)
  refine ⟨?_, fun q => ?_, fun k hk q hx => ?_⟩
  · rw [s.ids_take, List.length_append, ← Nat.add_assoc, ← h.count]
    exact Arena.count_insert _ _
  · rw [hget]
    split_ifs
    · exact .inr ⟨id, hlast, rfl⟩
    · exact (h.kept q).imp_right fun ⟨k, hk, hq⟩ => ⟨k, List.mem_append_left _ hk, hq⟩
  · rw [hget]
    split_ifs with hq
    · exact ⟨id, hlast, rfl⟩
    · rw [s.store_take, hs.lists.get?_enroll] at hx
      split_ifs at hx with hki
      · cases hx
        exact absurd rfl hq
      · have hold : k ∈ s.ids := (List.mem_append.mp hk).resolve_right fun hm =>
          hki (List.mem_singleton.mp hm)
        obtain ⟨k', hk', hq'⟩ := h.taken k hold q hx
        exact ⟨k', List.mem_append_left _ hk', hq'⟩

theorem Session.Enters.bindStatement (h : s.Enters store) (hs : s.Extends store roll scope)
    (tree : Tree) (options : Options) (statement : Slot) :
    (s.bindStatement tree options statement).Enters store := by
  have hall : ∀ bs : List Bound, (∀ b ∈ bs, b.symbol.uri = scope.uri) → ∀ s : Session,
      s.Enters store → s.Extends store roll scope → (bs.foldl Session.take s).Enters store := by
    intro bs
    induction bs with
    | nil => exact fun _ _ h _ => h
    | cons b bs ih =>
      intro hb s h hs
      rw [List.forall_mem_cons] at hb
      exact ih hb.2 _ (h.take hs b) (hs.take hb.1)
  refine hall _ (fun b hb => ?_) _ ⟨h.count, h.kept, h.taken⟩ ⟨hs.scope, hs.lists, hs.old⟩
  exact (Context.uri_of_mem_bind hb).trans (Scope.uri_of_drained hs.scope)

end Session

variable {p p' p'' : Project} {tree : Tree} {scope : Scope} {uri : String}

theorem enters_session (h : p.store.Lists p.roll) :
    (p.session tree scope).Enters p.store := by
  have hall : ∀ statements : List Slot, ∀ s : Session, s.Enters p.store →
      s.Extends p.store p.roll (p.unitScope tree scope) →
        (statements.foldl (Session.bindStatement tree p.options) s).Enters p.store := by
    intro statements
    induction statements with
    | nil => exact fun _ h _ => h
    | cons statement statements ih =>
      exact fun s h hs => ih _ (h.bindStatement hs tree p.options statement)
        (hs.bindStatement tree p.options statement)
  refine hall _ _ ⟨rfl, fun _ => .inl rfl, fun id hid => ?_⟩ (Session.extends_start h _)
  exact absurd hid List.not_mem_nil

/-! ## The imports of one unit -/

/-- **Only imports of one unit are found.** -/
structure SuppliesOnly (uri : String) (p p' : Project) : Prop where
  completed : p.Completed p'
  units : p'.units.keys = p.units.keys
  count : p'.numSymbols = p.numSymbols
  graph : ∃ sources, p'.graph = p.graph.addAll uri sources
  symbol : ∀ id, (∀ n w, p.waiting? uri n = some w → ∀ r ∈ w.queue, r.symbol ≠ id) →
    p'.symbol? id = p.symbol? id

theorem SuppliesOnly.refl (uri : String) (p : Project) : p.SuppliesOnly uri p :=
  ⟨Completed.refl p, rfl, rfl, ⟨[], rfl⟩, fun _ _ => rfl⟩

theorem SuppliesOnly.trans (h : SuppliesOnly uri p p') (h' : SuppliesOnly uri p' p'') :
    SuppliesOnly uri p p'' := by
  refine ⟨h.completed.trans h'.completed, h'.units.trans h.units, h'.count.trans h.count, ?_,
    fun id hid => ?_⟩
  · obtain ⟨vs, hv⟩ := h.graph
    obtain ⟨ws, hw⟩ := h'.graph
    exact ⟨vs ++ ws, by rw [hw, hv, ImportGraph.addAll_append]⟩
  · rw [h'.symbol id fun n w hw => hid n w (h.completed.waiting uri n w hw), h.symbol id hid]

theorem suppliesOnly_supplyImport (p : Project) (uri name target : String) :
    p.SuppliesOnly uri (p.supplyImport uri name target).1 := by
  cases hw : p.waiting? uri name with
  | none =>
    rw [supplyImport_of_none hw]
    exact SuppliesOnly.refl uri p
  | some w =>
    have hwait := hw
    obtain ⟨u, hu, hw⟩ := Option.bind_eq_some_iff.mp hw
    have hstore := store_supplyImport hu hw target
    refine ⟨completed_supplyImport p uri name target, ?_, ?_, ?_, fun id hid => ?_⟩
    · rw [units_supplyImport hu hw, Table.keys_modify]
    · rw [numSymbols, hstore, Store.count_settleAll, numSymbols]
    · simp only [supplyImport, hu, Scope.completeImport?, hw, Option.map_some]
      split_ifs
      · exact ⟨[w.source], rfl⟩
      · exact ⟨[], rfl⟩
    · have hnone : w.queue.filter (·.symbol = id) = [] := List.filter_eq_nil_iff.mpr fun r hr => by
        simpa using hid name w hwait r hr
      rw [symbol?, hstore, Store.symbol?_settleAll, hnone]
      exact Option.map_id'

theorem suppliesOnly_resolveFound {work : List Found} (h : ∀ f ∈ work, f.uri = uri) :
    p.SuppliesOnly uri (p.resolveFound work).1 := by
  rw [resolveFound_eq]
  induction work generalizing p with
  | nil => exact SuppliesOnly.refl uri p
  | cons f work ih =>
    obtain ⟨rfl, h⟩ := List.forall_mem_cons.mp h
    exact (suppliesOnly_supplyImport p f.uri f.name f.target).trans (ih h)

theorem keys_resolveFound (p : Project) (work : List Found) :
    (p.resolveFound work).1.units.keys = p.units.keys :=
  resolveFound_induction (P := fun q => q.units.keys = p.units.keys) rfl
    (fun q f hq => (suppliesOnly_supplyImport q f.uri f.name f.target).units.trans hq) work

/-- Where no other unit waits for a new one, only its own imports can be found. -/
theorem uri_of_mem_findable (hl : p.store.Lists p.roll)
    (hw : ∀ k n, p.awaited? k n ≠ some scope.uri) {f : Found}
    (hf : f ∈ (p.enter tree scope).findable scope.uri) : f.uri = scope.uri := by
  obtain ⟨w, hwait, hc, -⟩ := waiting?_of_mem_findable hf
  by_contra hk
  have ha : (p.enter tree scope).awaited? f.uri f.name = some w.source := by
    rw [awaited?, hwait, Option.map_some]
  rw [awaited?_enter hl, if_neg hk, hc.resolve_left hk] at ha
  exact hw f.uri f.name ha

/-! ## The graph of a project -/

/-- **The graph knows of imports of bound units only.** -/
structure Tracks (p : Project) : Prop where
  sound : p.graph.Sound
  bound : ∀ u, p.units.get? u = none → p.graph.imports.get? u = none

theorem Tracks.unload (h : p.Tracks) (uri : String) : (p.unload uri).1.Tracks := by
  unfold Project.unload
  cases hu : p.units.get? uri with
  | none => exact h
  | some unit =>
    refine ⟨h.sound.forget uri, fun k hk => ?_⟩
    change ((Table.mapValues _ _).get? k) = none at hk
    rw [Table.get?_mapValues, Option.map_eq_none_iff, Table.get?_erase] at hk
    show (p.graph.forget uri).imports.get? k = none
    rw [ImportGraph.get?_imports_forget]
    split_ifs at hk ⊢
    · rfl
    · exact h.bound k hk

theorem Tracks.enter (h : p.Tracks) : (p.enter tree scope).Tracks := by
  refine ⟨(h.sound.forget scope.uri).addAll scope.uri _, fun k hk => ?_⟩
  rw [Project.enter, Table.get?_insert] at hk
  split_ifs at hk with hne
  refine (ImportGraph.get?_imports_addAll _ hne).trans ?_
  rw [ImportGraph.get?_imports_forget, if_neg hne]
  exact h.bound k hk

theorem Tracks.supply (h : p.Tracks) (uri name target : String) :
    (p.supplyImport uri name target).1.Tracks := by
  cases hw : p.waiting? uri name with
  | none => rwa [supplyImport_of_none hw]
  | some w =>
    obtain ⟨u, hu, hw⟩ := Option.bind_eq_some_iff.mp hw
    have hs := suppliesOnly_supplyImport p uri name target
    obtain ⟨vs, hg⟩ := hs.graph
    refine ⟨by rw [hg]; exact h.sound.addAll uri vs, fun k hk => ?_⟩
    rw [Table.get?_eq_none_iff, hs.units, ← Table.get?_eq_none_iff] at hk
    have hne : k ≠ uri := fun e => by
      rw [e, hu] at hk
      cases hk
    rw [hg, ImportGraph.get?_imports_addAll vs hne]
    exact h.bound k hk

theorem Tracks.resolveFound (h : p.Tracks) (work : List Found) :
    (p.resolveFound work).1.Tracks :=
  resolveFound_induction h (fun _ f hp => hp.supply f.uri f.name f.target) work

theorem Tracks.bind (h : p.Tracks) (tree : Tree) (scope : Scope) :
    (p.bind tree scope).1.Tracks :=
  (h.unload scope.uri).enter.resolveFound _

/-! ## A unit that comes and goes -/

/-- The symbols of `ids` declare a qualified name. -/
def Declares (p : Project) (ids : List SymbolId) (q : String) : Prop :=
  ∃ id ∈ ids, (p.symbol? id).map Symbol.qualified = some q

/-- **Nothing but qualified names has changed.** -/
structure Restored (p p' : Project) : Prop where
  shortName : ∀ n, p'.store.names.byShortName? n = p.store.names.byShortName? n
  units : p'.units.keys = p.units.keys
  idsIn : ∀ uri, p'.idsIn uri = p.idsIn uri
  count : p'.numSymbols = p.numSymbols
  symbol : ∀ id, p'.symbol? id = p.symbol? id
  affected : ∀ uri, p'.affected uri = p.affected uri

theorem keys_unload : (p.unload uri).1.units.keys = p.units.keys.filter (· ≠ uri) := by
  unfold unload
  cases hu : p.units.get? uri with
  | none =>
    have hk := Table.get?_eq_none_iff.mp hu
    refine (List.filter_eq_self.mpr fun k hm => ?_).symm
    simpa using ne_of_mem_of_not_mem hm hk
  | some u => exact (Table.keys_mapValues _ _).trans (Table.keys_erase _ _)

theorem graph_unload {u : BoundUnit} (hu : p.units.get? uri = some u) :
    (p.unload uri).1.graph = p.graph.forget uri := by
  rw [unload, hu]

section Undo

variable (hl : p.store.Lists p.roll) (hn : p.units.get? scope.uri = none)

section New

include hn

theorem bind_eq_of_new : (p.bind tree scope).1 = ((p.enter tree scope).resolveFound
    ((p.enter tree scope).findable scope.uri)).1 := by
  rw [bind_eq, unload_of_get?_eq_none hn]

theorem ids_bind_of_new : (p.bind tree scope).2.1 = (p.session tree scope).ids := by
  rw [ids_bind, unload_of_get?_eq_none hn]

theorem idsIn_bind : (p.bind tree scope).1.idsIn scope.uri = (p.session tree scope).ids := by
  rw [bind_eq_of_new hn, (completed_resolveFound _ _).idsIn, idsIn_enter, if_pos rfl]

theorem keys_bind : (p.bind tree scope).1.units.keys = p.units.keys ++ [scope.uri] := by
  rw [bind_eq_of_new hn, keys_resolveFound, enter, Table.keys_insert,
    if_neg (Table.get?_eq_none_iff.mp hn)]

theorem declares_bind_iff {q : String} :
    (p.bind tree scope).1.Declares (p.bind tree scope).2.1 q ↔
      (p.enter tree scope).Declares (p.session tree scope).ids q := by
  have hbare : ∀ id, ((p.bind tree scope).1.symbol? id).map Symbol.bare =
      ((p.enter tree scope).symbol? id).map Symbol.bare := by
    rw [bind_eq_of_new hn]
    exact (completed_resolveFound _ _).bare
  have hq : ∀ id, ((p.bind tree scope).1.symbol? id).map Symbol.qualified =
      ((p.enter tree scope).symbol? id).map Symbol.qualified := fun id =>
    Symbol.map_of_bare Symbol.qualified_bare (hbare id)
  simp only [Declares, ids_bind_of_new hn, hq]

theorem roll_unload_bind : ((p.bind tree scope).1.unload scope.uri).1.roll = p.roll := by
  have hunit : ∀ e ∈ unitRoll (scope.uri, ⟨(p.session tree scope).scope,
      (p.session tree scope).ids⟩), e.uri = scope.uri := fun e he => by
    obtain ⟨id, -, rfl⟩ := List.mem_map.mp he
    rfl
  have hold : p.roll.filter (·.uri ≠ scope.uri) = p.roll := List.filter_eq_self.mpr fun e he => by
    obtain ⟨u, hu, -⟩ := mem_roll.mp he
    have hne : e.uri ≠ scope.uri := fun hc => by
      rw [hc, hn] at hu
      cases hu
    simpa using hne
  rw [roll_unload, bind_eq_of_new hn, (completed_resolveFound _ _).roll, roll_enter hn,
    List.filter_append, hold, List.filter_eq_nil_iff.mpr fun e he => by simp [hunit e he],
    List.append_nil]

end New

include hl hn

theorem symbol?_of_mem_session {id : SymbolId} (hid : id ∈ (p.session tree scope).ids) :
    p.symbol? id = none := by
  have hnd : ((p.enter tree scope).roll.map Listing.id).Nodup := (lists_enter hl hn).nodup
  rw [roll_enter hn, List.map_append, List.nodup_append] at hnd
  have hm : id ∈ (unitRoll (scope.uri, ⟨(p.session tree scope).scope,
      (p.session tree scope).ids⟩)).map Listing.id := by
    rw [unitRoll, List.map_map]
    exact List.mem_map.mpr ⟨id, hid, rfl⟩
  by_contra hx
  have hold := (hl.live id).mp (Option.ne_none_iff_isSome.mp hx)
  exact hnd.2.2 id hold id hm rfl

variable (tree) in
theorem lists_unload_bind :
    ((p.bind tree scope).1.unload scope.uri).1.store.Lists p.roll := by
  have h : ((p.bind tree scope).1.unload scope.uri).1.store.Lists _ :=
    lists_unload (lists_bind hl tree scope)
  rwa [roll_unload_bind hn] at h

variable (tree) in
/-- **Its qualified names** belong to nobody afterwards, the others to whom they did before. -/
theorem get?_qualified_unload_bind (q : String) :
    ((p.bind tree scope).1.Declares (p.bind tree scope).2.1 q →
      ((p.bind tree scope).1.unload scope.uri).1.store.names.qualified.get? q = none) ∧
    (¬(p.bind tree scope).1.Declares (p.bind tree scope).2.1 q →
      ((p.bind tree scope).1.unload scope.uri).1.store.names.qualified.get? q =
        p.store.names.qualified.get? q) := by
  have henter : (p.session tree scope).Enters p.store := enters_session hl
  have hlists : (p.enter tree scope).store.Lists _ := lists_enter hl hn
  have hget : ((p.bind tree scope).1.unload scope.uri).1.store.names.qualified.get? q =
      ((p.session tree scope).store.names.qualified.get? q).filter
        (· ∉ (p.session tree scope).ids) := by
    rw [store_unload, (lists_bind hl tree scope).get?_qualified_dismissAll, idsIn_bind hn,
      bind_eq_of_new hn, (completed_resolveFound _ _).names]
    rfl
  rw [declares_bind_iff hn, hget]
  constructor
  · rintro ⟨id, hid, hx⟩
    obtain ⟨k, hk, hq⟩ := henter.taken id hid q hx
    rw [hq, Option.filter_some, if_neg (by simpa using hk)]
  · intro hno
    rcases henter.kept q with hq | ⟨id, hid, hq⟩
    · rw [hq]
      cases hk : p.store.names.qualified.get? q with
      | none => rfl
      | some k =>
        obtain ⟨x, hx, -⟩ := hl.qualified q k hk
        have hnew : k ∉ (p.session tree scope).ids := fun hm => by
          rw [show p.store.symbol? k = none from symbol?_of_mem_session hl hn hm] at hx
          cases hx
        rw [Option.filter_some, if_pos (by simpa using hnew)]
    · obtain ⟨x, hx, hxq⟩ := hlists.qualified q id hq
      exact absurd ⟨id, hid, Option.map_eq_some_iff.mpr ⟨x, hx, hxq⟩⟩ hno

variable (hw : ∀ k n, p.awaited? k n ≠ some scope.uri)

include hw

variable (tree) in
theorem suppliesOnly_bind : (p.enter tree scope).SuppliesOnly scope.uri (p.bind tree scope).1 := by
  rw [bind_eq_of_new hn]
  exact suppliesOnly_resolveFound fun f hf => uri_of_mem_findable hl hw hf

variable (tree) in
theorem symbol?_unload_bind
    (hq : ∀ n, ∀ r ∈ scope.queueOf n, p.symbol? r.symbol = none) (id : SymbolId) :
    ((p.bind tree scope).1.unload scope.uri).1.symbol? id = p.symbol? id := by
  cases hx : p.symbol? id with
  | none =>
    have hroll := (lists_unload_bind tree hl hn).live id
    rw [← hl.live id, show p.store.symbol? id = none from hx] at hroll
    exact Option.not_isSome_iff_eq_none.mp fun h => by cases hroll.mp h
  | some x =>
    have hid : id ∉ (p.session tree scope).ids := fun hm => by
      rw [symbol?_of_mem_session hl hn hm] at hx
      cases hx
    rw [symbol?_unload, idsIn_bind hn, if_neg hid,
      (suppliesOnly_bind tree hl hn hw).symbol id fun n w hwait r hr he => ?_, symbol?_enter hl hx]
    rw [waiting?, enter, Table.get?_insert, if_pos rfl, Option.bind_some] at hwait
    have hr' : r ∈ (p.session tree scope).scope.queueOf n := by
      rwa [Scope.queueOf_of_get? hwait]
    rcases p.adds_session n r hr' with hbefore | hown
    · rw [← he, hq n r hbefore] at hx
      cases hx
    · exact hid (he ▸ hown)

variable (tree) in
theorem numSymbols_unload_bind :
    ((p.bind tree scope).1.unload scope.uri).1.numSymbols = p.numSymbols := by
  have hs := suppliesOnly_bind tree hl hn hw
  have henter : (p.session tree scope).Enters p.store := enters_session hl
  have hlive : ∀ id ∈ (p.session tree scope).ids,
      ((p.bind tree scope).1.store.symbol? id).isSome = true := fun id hid => by
    rw [(lists_bind hl tree scope).live, map_id_roll_bind, ids_bind_of_new hn]
    exact List.mem_append_right _ hid
  have hnodup : (p.session tree scope).ids.Nodup := by
    have hnd := (lists_bind hl tree scope).nodup
    rw [map_id_roll_bind, ids_bind_of_new hn] at hnd
    exact (List.nodup_append.mp hnd).2.1
  have hcount : (p.bind tree scope).1.store.symbols.count =
      p.store.symbols.count + (p.session tree scope).ids.length := hs.count.trans henter.count
  rw [numSymbols, store_unload, idsIn_bind hn, Store.count_dismissAll hnodup hlive, hcount,
    Nat.add_sub_cancel, numSymbols]

variable (tree) in
theorem graph_unload_bind (ht : p.Tracks) :
    ((p.bind tree scope).1.unload scope.uri).1.graph = p.graph := by
  have hs := suppliesOnly_bind tree hl hn hw
  obtain ⟨u, hu⟩ : ∃ u, (p.bind tree scope).1.units.get? scope.uri = some u := by
    rw [← Table.mem_keys, hs.units, enter, Table.keys_insert]
    split_ifs with hk
    · exact hk
    · exact List.mem_append_right _ (List.mem_singleton_self _)
  -- What has been added for the unit, its own imports and those that were found, is forgotten.
  have hnone := ht.bound scope.uri hn
  obtain ⟨vs, hg⟩ := hs.graph
  rw [graph_unload hu, hg, enter, ImportGraph.replaceImports, ImportGraph.forget_of_none hnone,
    ← ImportGraph.addAll, ← ImportGraph.addAll_append, ImportGraph.forget_addAll ht.sound hnone]

/-- **A unit that comes and goes** changes nothing but qualified names. -/
theorem restored_unload_bind (ht : p.Tracks)
    (hq : ∀ n, ∀ r ∈ scope.queueOf n, p.symbol? r.symbol = none) :
    p.Restored ((p.bind tree scope).1.unload scope.uri).1 := by
  have hsymbol := symbol?_unload_bind tree hl hn hw hq
  have hs := suppliesOnly_bind tree hl hn hw
  refine
    { shortName := fun n => ?shortName
      units := ?units
      idsIn := fun k => ?idsIn
      count := numSymbols_unload_bind tree hl hn hw
      symbol := hsymbol
      affected := fun k => ?affected }
  case shortName =>
    have hlists := lists_unload_bind tree hl hn
    rw [hlists.byShortName?_eq, hl.byShortName?_eq, Store.publicIds_congr fun id => congrArg _ (hsymbol id)]
  case units =>
    have hnew : scope.uri ∉ p.units.keys := Table.get?_eq_none_iff.mp hn
    have hold : p.units.keys.filter (· ≠ scope.uri) = p.units.keys :=
      List.filter_eq_self.mpr fun k hk => by simpa using ne_of_mem_of_not_mem hk hnew
    rw [keys_unload, hs.units, enter, Table.keys_insert, if_neg hnew, List.filter_append, hold]
    simp
  case idsIn =>
    rw [idsIn_unload]
    split_ifs with hk
    · rw [hk, idsIn, hn]
      rfl
    · rw [hs.completed.idsIn, idsIn_enter, if_neg hk]
  case affected =>
    rw [affected, graph_unload_bind tree hl hn hw ht, affected]

end Undo

/-- Whether an import waits can be read off the list of units. -/
theorem awaited?_ne_of_entries (h : ∀ e ∈ p.units.entries, ∀ w ∈ e.2.scope.waiting.entries,
    w.2.source ≠ uri) (k n : String) : p.awaited? k n ≠ some uri := by
  intro ha
  obtain ⟨w, hw, hs⟩ := Option.map_eq_some_iff.mp ha
  obtain ⟨u, hu, hw⟩ := Option.bind_eq_some_iff.mp hw
  exact h (k, u) (Table.mem_entries.mpr hu) (n, w) (Table.mem_entries.mpr hw) hs

/-- A look-up by qualified name is answered as before, unless a new unit has taken the name. -/
theorem byQualifiedName?_congr {t t' : NameTable} {lost : String → Prop}
    (h : ∀ q, (lost q → t'.qualified.get? q = none) ∧
      (¬lost q → t'.qualified.get? q = t.qualified.get? q)) :
    (∀ q relativeTo, t'.byQualifiedName? q relativeTo = t.byQualifiedName? q relativeTo) ↔
      ∀ q, lost q → t.byQualifiedName? q none = none := by
  have hnone : ∀ (t : NameTable) q, t.byQualifiedName? q none = t.qualified.get? q :=
    fun t q => Option.or_none
  constructor
  · intro hsame q hq
    rw [← hsame, hnone, (h q).1 hq]
  · intro hlost q relativeTo
    have hget : ∀ k, t'.qualified.get? k = t.qualified.get? k := fun k => by
      by_cases hk : lost k
      · rw [(h k).1 hk, ← hnone, hlost k hk]
      · exact (h k).2 hk
    simp only [NameTable.byQualifiedName?, hget]

end Project

namespace History

theorem tracks_run (options : Options) (actions : List Action) :
    (run options actions).project.Tracks := by
  refine run_induction (P := fun h => h.project.Tracks) ⟨ImportGraph.sound_empty, fun _ _ => rfl⟩
    fun h a _ ht => ?_
  cases a with
  | bind tree scope => exact ht.bind tree scope
  | unload uri => exact ht.unload uri
  | supply uri name target => exact ht.supply uri name target

/-- **Binding and unloading again.** A new unit for which no other waits changes nothing when it
comes and goes, but the qualified names that it declares are found no more. Every look-up by
qualified name is answered as before iff nobody had one of these names. -/
theorem unload_bind (options : Options) (actions : List Action) (tree : Tree) (scope : Scope)
    (hn : (run options actions).project.units.get? scope.uri = none)
    (hw : ∀ uri name, (run options actions).project.awaited? uri name ≠ some scope.uri)
    (hq : ∀ n, ∀ r ∈ scope.queueOf n, (run options actions).project.symbol? r.symbol = none) :
    let p := (run options actions).project
    let p' := ((p.bind tree scope).1.unload scope.uri).1
    let lost := (p.bind tree scope).1.Declares (p.bind tree scope).2.1
    p.Restored p' ∧
      (∀ q, lost q → p'.store.names.byQualifiedName? q none = none) ∧
      (∀ q, ¬lost q →
        p'.store.names.byQualifiedName? q none = p.store.names.byQualifiedName? q none) ∧
      ((∀ q relativeTo, p'.store.names.byQualifiedName? q relativeTo =
          p.store.names.byQualifiedName? q relativeTo) ↔
        ∀ q, lost q → p.store.names.byQualifiedName? q none = none) := by
  intro p p' lost
  have hl : p.store.Lists p.roll := lists_run options actions
  have hget := Project.get?_qualified_unload_bind tree hl hn
  have hnone : ∀ (t : NameTable) q, t.byQualifiedName? q none = t.qualified.get? q :=
    fun t q => Option.or_none
  refine ⟨Project.restored_unload_bind hl hn hw (tracks_run options actions) hq, fun q h => ?_,
    fun q h => ?_, Project.byQualifiedName?_congr hget⟩
  · rw [hnone, (hget q).1 h]
  · rw [hnone, (hget q).2 h, hnone]

/-- A unit that declares one class. -/
def oneClass : Tree :=
  Tree.link
    { file := "x.avt"
      source := "class X {}"
      nodes := #[⟨.identifier "X", ⟨6, 7⟩, none⟩,
        ⟨.classLike .classDeclaration { name := some 0 }, ⟨0, 10⟩, none⟩,
        ⟨.sourceFile [some 1], ⟨0, 10⟩, none⟩] } 2

/-- The project with that unit, in some namespace. -/
def oneUnit (path : List String) : History := run {} [.bind oneClass { uri := "a.avt", path }]

/-- The scope of another unit. -/
def otherScope (path : List String) : Scope := { uri := "b.avt", path }

theorem unload_bind_oneUnit :
    (oneUnit ["a"]).project.units.get? (otherScope ["b"]).uri = none ∧
      (∀ uri name, (oneUnit ["a"]).project.awaited? uri name ≠ some (otherScope ["b"]).uri) ∧
      (∀ n, ∀ r ∈ (otherScope ["b"]).queueOf n,
        (oneUnit ["a"]).project.symbol? r.symbol = none) ∧
      (oneUnit ["a"]).project.store.names.byShortName? "X" = some ⟨0, 0⟩ ∧
      ((oneUnit ["a"]).project.bind oneClass (otherScope ["b"])).1.store.names.byShortName? "X" =
        some ⟨1, 0⟩ ∧
      (((oneUnit ["a"]).project.bind oneClass (otherScope ["b"])).1.unload
        (otherScope ["b"]).uri).1.store.names.byShortName? "X" = some ⟨0, 0⟩ := by
  obtain ⟨hn, hw, hold, hnew⟩ :
      (oneUnit ["a"]).project.units.contains (otherScope ["b"]).uri = false ∧
      (∀ e ∈ (oneUnit ["a"]).project.units.entries, ∀ w ∈ e.2.scope.waiting.entries,
        w.2.source ≠ (otherScope ["b"]).uri) ∧
      (oneUnit ["a"]).project.store.names.byShortName? "X" = some ⟨0, 0⟩ ∧
      ((oneUnit ["a"]).project.bind oneClass (otherScope ["b"])).1.store.names.byShortName? "X" =
        some ⟨1, 0⟩ := by
    rw [oneUnit, run_eq rfl]
    decide +kernel
  have hn := Option.not_isSome_iff_eq_none.mp (Bool.eq_false_iff.mp hn)
  have hw := Project.awaited?_ne_of_entries hw
  have hq : ∀ n, ∀ r ∈ (otherScope ["b"]).queueOf n,
      (oneUnit ["a"]).project.symbol? r.symbol = none := fun n r hr => absurd hr List.not_mem_nil
  obtain ⟨hundo, -⟩ := unload_bind {} [.bind oneClass { uri := "a.avt", path := ["a"] }] oneClass
    (otherScope ["b"]) hn hw hq
  exact ⟨hn, hw, hq, hold, hnew, (hundo.shortName "X").trans hold⟩

/-- Who had the qualified name of a unit that comes and goes does not get it back. -/
theorem not_restored_oneUnit :
    (oneUnit []).project.units.get? (otherScope []).uri = none ∧
      (∀ uri name, (oneUnit []).project.awaited? uri name ≠ some (otherScope []).uri) ∧
      (∀ n, (otherScope []).queueOf n = []) ∧
      (oneUnit []).project.store.names.byQualifiedName? "X" none = some ⟨0, 0⟩ ∧
      (((oneUnit []).project.bind oneClass (otherScope [])).1.unload
        (otherScope []).uri).1.store.names.byQualifiedName? "X" none = none := by
  obtain ⟨hn, hw, hold, hnew⟩ :
      (oneUnit []).project.units.contains (otherScope []).uri = false ∧
      (∀ e ∈ (oneUnit []).project.units.entries, ∀ w ∈ e.2.scope.waiting.entries,
        w.2.source ≠ (otherScope []).uri) ∧
      (oneUnit []).project.store.names.byQualifiedName? "X" none = some ⟨0, 0⟩ ∧
      (((oneUnit []).project.bind oneClass (otherScope [])).1.unload
        (otherScope []).uri).1.store.names.byQualifiedName? "X" none = none := by
    rw [oneUnit, run_eq rfl]
    decide +kernel
  exact ⟨Option.not_isSome_iff_eq_none.mp (Bool.eq_false_iff.mp hn),
    Project.awaited?_ne_of_entries hw, fun _ => rfl, hold, hnew⟩

end History

end Bindery
