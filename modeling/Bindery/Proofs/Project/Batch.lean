import Bindery.Proofs.Project.Invalidation
import Bindery.Proofs.Project.Waiting
import Bindery.Proofs.Symbol.Orphan

/-!
# The symbols of one unit

A unit is bound as a batch: its symbols in order, with what waits for each of them. When its imports
are found, each symbol is told of its own references, in the order of the imports.

* `Session.Holds`, `Session.Carries`: what the symbols of a session were bound as.
* **`Session.Carries.take`**, **`Session.Carries.bindStatement`**: one symbol, one statement.
* `Bound.told`: what a symbol is told of an import of its unit.
* **`Project.orphan_bind`**: the symbols of a unit once it is bound.
-/

namespace Bindery

section Pairs

variable {α β : Type} {R : α → β → Prop} {as : List α} {bs : List β}

theorem exists_partner (h : List.Forall₂ R as bs) {a : α} (ha : a ∈ as) : ∃ b ∈ bs, R a b := by
  induction h with
  | nil => cases ha
  | cons hr _ ih =>
    rcases List.mem_cons.mp ha with rfl | ha
    · exact ⟨_, List.mem_cons_self, hr⟩
    · obtain ⟨b, hb, hr⟩ := ih ha
      exact ⟨b, List.mem_cons_of_mem _ hb, hr⟩

theorem exists_partner' (h : List.Forall₂ R as bs) {b : β} (hb : b ∈ bs) : ∃ a ∈ as, R a b :=
  exists_partner h.flip hb

theorem exists_mem_congr (h : List.Forall₂ R as bs) {P : α → Prop} {Q : β → Prop}
    (hp : ∀ a b, R a b → (P a ↔ Q b)) : (∃ a ∈ as, P a) ↔ ∃ b ∈ bs, Q b := by
  constructor
  · rintro ⟨a, ha, hpa⟩
    obtain ⟨b, hb, hr⟩ := exists_partner h ha
    exact ⟨b, hb, (hp a b hr).mp hpa⟩
  · rintro ⟨b, hb, hqb⟩
    obtain ⟨a, ha, hr⟩ := exists_partner' h hb
    exact ⟨a, ha, (hp a b hr).mpr hqb⟩

/-- What holds of some partner, where what is new about one can be said of the other. -/
theorem exists_mem_or_congr (h : List.Forall₂ R as bs) {P : α → Prop} {Q Q' : β → Prop}
    (hp : ∀ a b, R a b → (Q' b ↔ Q b ∨ P a)) :
    (∃ b ∈ bs, Q' b) ↔ (∃ b ∈ bs, Q b) ∨ ∃ a ∈ as, P a := by
  constructor
  · rintro ⟨b, hb, hqb⟩
    obtain ⟨a, ha, hr⟩ := exists_partner' h hb
    exact ((hp a b hr).mp hqb).imp (fun hq => ⟨b, hb, hq⟩) fun hpa => ⟨a, ha, hpa⟩
  · rintro (⟨b, hb, hqb⟩ | ⟨a, ha, hpa⟩)
    · obtain ⟨a, -, hr⟩ := exists_partner' h hb
      exact ⟨b, hb, (hp a b hr).mpr (.inl hqb)⟩
    · obtain ⟨b, hb, hr⟩ := exists_partner h ha
      exact ⟨b, hb, (hp a b hr).mpr (.inr hpa)⟩

theorem partners_comp {γ : Type} {S : β → γ → Prop} {cs : List γ} (h : List.Forall₂ R as bs)
    (h' : List.Forall₂ S bs cs) : List.Forall₂ (Relation.Comp R S) as cs := by
  induction h generalizing cs with
  | nil =>
    cases h'
    exact .nil
  | cons hr _ ih =>
    cases h' with
    | cons hs h' => exact .cons ⟨_, hr, hs⟩ (ih h')

end Pairs

/-- The imports that wait in a scope, each with its unit. -/
def Scope.requests (s : Scope) : List (String × String) :=
  s.waiting.entries.map fun e => (e.1, e.2.source)

theorem Scope.requests_of_drained {s t : Scope} (h : s.drained = t.drained) :
    s.requests = t.requests := by
  have hd : ∀ s : Scope, s.requests = s.drained.requests := fun s => by
    simp [requests, drained, Table.mapValues]
  rw [hd, h, ← hd]

theorem Scope.mem_requests {s : Scope} {n source : String} :
    (n, source) ∈ s.requests ↔ ∃ w, s.waiting.get? n = some w ∧ w.source = source := by
  rw [requests, List.mem_map]
  constructor
  · rintro ⟨⟨k, w⟩, hm, he⟩
    obtain ⟨rfl, rfl⟩ := Prod.mk.inj he
    exact ⟨w, Table.mem_entries.mp hm, rfl⟩
  · rintro ⟨w, hw, rfl⟩
    exact ⟨(n, w), Table.mem_entries.mpr hw, rfl⟩

/-- **What a symbol is told** of an import of its unit that was found, apart from who goes by its
name. -/
def Bound.told (b : Bound) (target source name : String) : List LateImport :=
  (b.deferred.filter (·.name = name)).map fun d => ⟨d, target, source, none⟩

theorem Bound.mem_told {b : Bound} {target source name : String} {l : LateImport} :
    l ∈ b.told target source name ↔ l.deferral ∈ b.deferred ∧ l.name = name ∧ l.target = target ∧
      l.source = source ∧ l.parent = none := by
  rw [told, List.mem_map]
  constructor
  · rintro ⟨d, hd, rfl⟩
    obtain ⟨hd, hn⟩ := List.mem_filter.mp hd
    exact ⟨hd, of_decide_eq_true hn, rfl, rfl, rfl⟩
  · rintro ⟨hd, hn, rfl, rfl, hp⟩
    refine ⟨l.deferral, List.mem_filter.mpr ⟨hd, decide_eq_true hn⟩, ?_⟩
    rw [← hp]

namespace Project

/-! ## Sessions -/

/-- **The symbol `id` of a session was bound as `b`**, and its deferrals wait. -/
structure Session.Holds (s : Session) (id : SymbolId) (b : Bound) : Prop where
  mem : id ∈ s.ids
  symbol : s.store.symbol? id = some b.symbol
  queue : ∀ n w, s.scope.waiting.get? n = some w →
    w.queue.filter (·.symbol = id) = (b.deferred.filter (·.name = n)).map (Deferral.waiting id)

/-- **The symbols of a session were bound as `bs`**, in order, and nothing else waits. -/
structure Session.Carries (s : Session) (bs : List Bound) : Prop where
  owns : ∀ n, s.Owns n
  holds : List.Forall₂ s.Holds s.ids bs

section Session

variable {store : Store} {roll : List Listing} {scope : Scope} {s : Session} {bs : List Bound}
  {id : SymbolId} {b c : Bound}

theorem Session.Holds.take (h : s.Holds id b) (hs : s.Extends store roll scope) (c : Bound) :
    (s.take c).Holds id b := by
  have hne : id ≠ (s.store.enroll c.symbol !s.scope.isLibrary).2.1 := fun he => by
    have hx := h.symbol
    rw [he, hs.lists.symbol?_enroll_fresh] at hx
    cases hx
  refine ⟨?_, ?_, fun n w hw => ?_⟩
  · rw [s.ids_take]
    exact List.mem_append_left _ h.mem
  · rw [s.store_take, hs.lists.get?_enroll, if_neg hne, h.symbol]
  · rw [s.scope_take, Scope.get?_waiting_awaitAll] at hw
    obtain ⟨v, hv, rfl⟩ := Option.map_eq_some_iff.mp hw
    show (v.queue ++ (c.deferred.filter (·.name = n)).map (Deferral.waiting _)).filter _ = _
    rw [List.filter_append, h.queue n v hv, List.append_right_eq_self, List.filter_eq_nil_iff]
    intro r hr
    obtain ⟨d, -, rfl⟩ := List.mem_map.mp hr
    simp [Deferral.waiting, hne.symm]

theorem Session.Carries.isSome (h : s.Carries bs) (hid : id ∈ s.ids) :
    (s.store.symbol? id).isSome = true := by
  obtain ⟨b, -, hb⟩ := exists_partner h.holds hid
  exact Option.isSome_of_eq_some hb.symbol

theorem Session.Carries.take (h : s.Carries bs) (hs : s.Extends store roll scope) (b : Bound) :
    (s.take b).Carries (bs ++ [b]) := by
  refine ⟨fun n => (h.owns n).take b, ?_⟩
  rw [s.ids_take]
  refine List.rel_append (h.holds.imp fun id c hc => hc.take hs b)
    (.cons ⟨?_, ?_, fun n w hw => ?_⟩ .nil)
  · rw [s.ids_take]
    exact List.mem_append_right _ (List.mem_singleton_self _)
  · rw [s.store_take, hs.lists.get?_enroll, if_pos rfl]
  · rw [s.scope_take, Scope.get?_waiting_awaitAll] at hw
    obtain ⟨v, hv, rfl⟩ := Option.map_eq_some_iff.mp hw
    set id := (s.store.enroll b.symbol !s.scope.isLibrary).2.1 with hid
    have hold : v.queue.filter (·.symbol = id) = [] := by
      refine List.filter_eq_nil_iff.mpr fun r hr => ?_
      have hne : r.symbol ≠ id := fun he => by
        have hlive := h.isSome (h.owns n r (Scope.queueOf_of_get? hv ▸ hr))
        rw [he, hs.lists.symbol?_enroll_fresh] at hlive
        cases hlive
      simpa using hne
    have hown : ((b.deferred.filter (·.name = n)).map (Deferral.waiting id)).filter
        (·.symbol = id) = (b.deferred.filter (·.name = n)).map (Deferral.waiting id) := by
      refine List.filter_eq_self.mpr fun r hr => ?_
      obtain ⟨d, -, rfl⟩ := List.mem_map.mp hr
      simp [Deferral.waiting]
    show (v.queue ++ (b.deferred.filter (·.name = n)).map (Deferral.waiting id)).filter _ = _
    rw [List.filter_append, hold, List.nil_append, hown]

theorem Session.Carries.takeAll (h : s.Carries bs) (hs : s.Extends store roll scope)
    {cs : List Bound} (hc : ∀ c ∈ cs, c.symbol.uri = scope.uri) :
    (cs.foldl Session.take s).Carries (bs ++ cs) := by
  induction cs generalizing s bs with
  | nil => rwa [List.append_nil]
  | cons c cs ih =>
    rw [List.forall_mem_cons] at hc
    rw [List.append_cons]
    exact ih (h.take hs c) (hs.take hc.1) hc.2

theorem Session.Carries.bindStatement (h : s.Carries bs) (hs : s.Extends store roll scope)
    (tree : Tree) (options : Options) (statement : Slot) :
    (s.bindStatement tree options statement).Carries
      (bs ++ ((s.context tree options).bind statement).1) := by
  have h' : ({ s with diagnostics := s.diagnostics ++
      ((s.context tree options).bind statement).2 } : Session).Carries bs :=
    ⟨h.owns, h.holds.imp fun _ _ hc => ⟨hc.mem, hc.symbol, hc.queue⟩⟩
  refine h'.takeAll ⟨hs.scope, hs.lists, hs.old⟩ fun b hb => ?_
  exact (Context.uri_of_mem_bind hb).trans (Scope.uri_of_drained hs.scope)

theorem Session.Carries.mem_imported (h : s.Carries bs) {v : String} :
    v ∈ s.imported ↔ ∃ b ∈ bs, ∃ e ∈ b.symbol.edges, e.origin = .otherUnit v := by
  rw [Session.mem_imported]
  constructor
  · rintro ⟨id, hid, x, hx, he⟩
    obtain ⟨b, hb, hold⟩ := exists_partner h.holds hid
    rw [hold.symbol, Option.some.injEq] at hx
    exact ⟨b, hb, hx ▸ he⟩
  · rintro ⟨b, hb, he⟩
    obtain ⟨id, hid, hold⟩ := exists_partner' h.holds hb
    exact ⟨id, hid, b.symbol, hold.symbol, he⟩

theorem Session.Carries.queue_ne_nil_iff (h : s.Carries bs) {n : String} {w : WaitingImport}
    (hw : s.scope.waiting.get? n = some w) :
    w.queue ≠ [] ↔ ∃ b ∈ bs, n ∈ b.deferred.map Deferral.name := by
  constructor
  · intro hq
    obtain ⟨r, hr⟩ := List.exists_mem_of_ne_nil _ hq
    obtain ⟨b, hb, hold⟩ := exists_partner h.holds (h.owns n r (Scope.queueOf_of_get? hw ▸ hr))
    have hm : r ∈ w.queue.filter (·.symbol = r.symbol) := List.mem_filter.mpr ⟨hr, by simp⟩
    rw [hold.queue n w hw] at hm
    obtain ⟨d, hd, -⟩ := List.mem_map.mp hm
    obtain ⟨hd, hn⟩ := List.mem_filter.mp hd
    exact ⟨b, hb, List.mem_map.mpr ⟨d, hd, by simpa using hn⟩⟩
  · rintro ⟨b, hb, hn⟩
    obtain ⟨d, hd, rfl⟩ := List.mem_map.mp hn
    obtain ⟨id, -, hold⟩ := exists_partner' h.holds hb
    have hm : d.waiting id ∈ (b.deferred.filter (·.name = d.name)).map (Deferral.waiting id) :=
      List.mem_map_of_mem (List.mem_filter.mpr ⟨hd, by simp⟩)
    rw [← hold.queue d.name w hw] at hm
    exact List.ne_nil_of_mem (List.mem_of_mem_filter hm)

end Session

theorem Session.carries_start {scope : Scope} (hf : scope.IsFresh) (p : Project) (tree : Tree) :
    Session.Carries { store := p.store, scope := p.unitScope tree scope } [] := by
  refine ⟨fun n r hr => ?_, .nil⟩
  change r ∈ (p.unitScope tree scope).queueOf n at hr
  rw [Scope.queueOf, waiting_unitScope, ← Scope.queueOf, hf n] at hr
  cases hr

/-! ## The imports of a unit -/

theorem exportedName?_congr {p q : Project} {uri : String} (h : List.Forall₂ (fun id id' =>
      (p.symbol? id).map Symbol.bare = (q.symbol? id').map Symbol.bare) (p.idsIn uri) (q.idsIn uri))
    (n : String) : p.exportedName? uri n = q.exportedName? uri n := by
  have hlist : ∀ {ids ids' : List SymbolId}, List.Forall₂ (fun id id' =>
      (p.symbol? id).map Symbol.bare = (q.symbol? id').map Symbol.bare) ids ids' →
        (ids.filterMap p.symbol?).map Symbol.bare = (ids'.filterMap q.symbol?).map Symbol.bare := by
    intro ids ids' h
    induction h with
    | nil => rfl
    | @cons id id' ids ids' hb _ ih =>
      cases hx : p.symbol? id <;> cases hy : q.symbol? id' <;> simp_all
  have hfirst : ∀ xs : List Symbol, (xs.find? (·.name = n)).map Symbol.qualified =
      ((xs.map Symbol.bare).find? (·.name = n)).map Symbol.qualified := by
    intro xs
    rw [List.find?_map, Option.map_map]
    rfl
  rw [exportedName?, exportedName?, hfirst, hlist h, ← hfirst]

/-- **What a symbol of a unit is told** when those of its imports are found that are answered. -/
def lateOf (p : Project) (requests : List (String × String)) (b : Bound) : List LateImport :=
  requests.flatMap fun r => (p.exportedName? r.2 r.1).toList.flatMap fun target =>
    b.told target r.2 r.1

variable {p : Project} {tree : Tree} {scope : Scope} {id : SymbolId} {b : Bound}

variable (tree) in
theorem requests_session (hl : p.store.Lists p.roll) :
    (p.session tree scope).scope.requests = scope.requests := by
  have hs : (p.session tree scope).scope.drained = _ := (extends_session hl).scope
  rw [Scope.requests_of_drained hs, Scope.requests, Scope.requests, waiting_unitScope]

/-- What the queue of an import holds for a symbol is what the symbol is told of it. -/
theorem map_orphan_told {f : Found} {w : WaitingImport} (hw : p.waiting? f.uri f.name = some w)
    (hq : w.queue.filter (·.symbol = id) =
      (b.deferred.filter (·.name = f.name)).map (Deferral.waiting id)) :
    (p.told id f).map LateImport.orphan = b.told f.target w.source f.name := by
  rw [told_of_some hw, hq, List.map_map, List.map_map, Bound.told]
  refine List.map_congr_left fun d hd => ?_
  obtain hn : d.name = f.name := by simpa using (List.mem_filter.mp hd).2
  rw [← hn]
  rfl

variable (tree) in
/-- What is found for a new unit: imports of other units, then its own. -/
theorem findable_enter_of_new (hn : p.units.get? scope.uri = none) : ∃ others,
    (∀ f ∈ others, f.uri ≠ scope.uri) ∧ (p.enter tree scope).findable scope.uri = others ++
      (p.session tree scope).scope.waiting.entries.filterMap fun i =>
        ((p.enter tree scope).exportedName? i.2.source i.1).map fun t =>
          (⟨scope.uri, i.1, t⟩ : Found) := by
  have hentries : (p.enter tree scope).units.entries = p.units.entries ++
      [(scope.uri, ⟨(p.session tree scope).scope, (p.session tree scope).ids⟩)] :=
    Table.entries_insert (Table.get?_eq_none_iff.mp hn)
  refine ⟨p.units.entries.flatMap fun e => e.2.scope.waiting.entries.filterMap fun i =>
    if e.1 = scope.uri ∨ i.2.source = scope.uri then
      ((p.enter tree scope).exportedName? i.2.source i.1).map fun t => (⟨e.1, i.1, t⟩ : Found)
    else none, ?others, ?findable⟩
  case others =>
    intro f hf hu
    obtain ⟨e, he, hf⟩ := List.mem_flatMap.mp hf
    obtain ⟨i, -, hi⟩ := List.mem_filterMap.mp hf
    split_ifs at hi
    obtain ⟨t, -, rfl⟩ := Option.map_eq_some_iff.mp hi
    have hget := Table.mem_entries.mp he
    rw [show e.1 = scope.uri from hu, hn] at hget
    cases hget
  case findable =>
    rw [findable, hentries, List.flatMap_append, List.flatMap_singleton]
    simp only [true_or, if_true]

theorem flatMap_told_enter (hl : p.store.Lists p.roll) (hr : p.Recalls fun _ => True)
    (hn : p.units.get? scope.uri = none) (hf : scope.IsFresh)
    (h : (p.session tree scope).Holds id b) :
    (((p.enter tree scope).findable scope.uri).flatMap
        ((p.enter tree scope).told id)).map LateImport.orphan =
      (p.enter tree scope).lateOf scope.requests b := by
  have hc : (p.enter tree scope).Continues :=
    (hr.enter hl hf fun _ _ => trivial).continues
  have hl₁ : (p.enter tree scope).store.Lists _ := lists_enter hl hn
  have hid : id ∈ (p.enter tree scope).idsIn scope.uri := by
    rw [idsIn_enter, if_pos rfl]
    exact h.mem
  obtain ⟨others, hothers, hfound⟩ := findable_enter_of_new tree hn
  have hnone : others.flatMap ((p.enter tree scope).told id) = [] := by
    refine List.flatMap_eq_nil_iff.mpr fun f hf => List.eq_nil_iff_forall_not_mem.mpr fun l hlm => ?_
    exact hothers f hf (hc.uri_of_mem_told hl₁ hid hlm)
  rw [hfound, List.flatMap_append, hnone, List.nil_append, List.map_flatMap, lateOf,
    ← requests_session tree hl, Scope.requests, List.flatMap_map,
    List.filterMap_eq_flatMap_toList, List.flatMap_assoc]
  refine List.flatMap_congr fun i hi => ?_
  dsimp only
  cases (p.enter tree scope).exportedName? i.2.source i.1 with
  | none => rfl
  | some t =>
    rw [Option.map_some, Option.toList_some, Option.toList_some, List.flatMap_singleton,
      List.flatMap_singleton]
    have hw := Table.mem_entries.mp hi
    refine map_orphan_told (f := ⟨scope.uri, i.1, t⟩) ?_ (h.queue i.1 i.2 hw)
    rw [waiting?_enter, if_pos rfl, hw]

/-- **A symbol of a unit once the unit is bound.** -/
theorem orphan_bind (hl : p.store.Lists p.roll) (hr : p.Recalls fun _ => True)
    (hn : p.units.get? scope.uri = none) (hf : scope.IsFresh)
    (h : (p.session tree scope).Holds id b) :
    ((p.bind tree scope).1.symbol? id).map Symbol.orphan = some (b.symbol.orphan.learnAll
      ((p.enter tree scope).lateOf scope.requests b)) := by
  have hx : (p.enter tree scope).symbol? id = some b.symbol := h.symbol
  rw [bind_eq_of_new hn, symbol?_resolveFound _ (pairwise_findable _ _), hx, Option.map_some,
    Option.map_some, Symbol.orphan_learnAll, flatMap_told_enter hl hr hn hf h]

/-! ## The units that a unit imports -/

/-- An import of the unit `u` from `v` was found, and some symbol had waited for it. -/
def Found.Joins (p : Project) (f : Found) (u v : String) : Prop :=
  f.uri = u ∧ ∃ w, p.waiting? u f.name = some w ∧ w.queue ≠ [] ∧ w.source = v

variable {f : Found} {u v : String}

theorem mem_neighbours_supplyImport (hc : p.Continues) :
    v ∈ ImportGraph.neighbours (p.supplyImport f.uri f.name f.target).1.graph.imports u ↔
      v ∈ ImportGraph.neighbours p.graph.imports u ∨ v ≠ u ∧ f.Joins p u v := by
  cases hw : p.waiting? f.uri f.name with
  | none =>
    rw [supplyImport_of_none hw]
    refine (or_iff_left ?_).symm
    rintro ⟨-, rfl, w, hw', -⟩
    rw [hw] at hw'
    cases hw'
  | some w =>
    have hjoins : f.Joins p u v ↔ f.uri = u ∧ w.queue ≠ [] ∧ w.source = v := by
      refine and_congr_right fun hu => ?_
      rw [← hu, hw]
      exact ⟨fun ⟨w', hw', h⟩ => Option.some.inj hw' ▸ h, fun h => ⟨w, rfl, h⟩⟩
    have hcount : 0 < (p.supplyImport f.uri f.name f.target).2.1 ↔ w.queue ≠ [] := by
      rw [hc.counted _ _ _ hw]
      exact List.length_pos_iff
    rw [hjoins, graph_supplyImport hw]
    split_ifs with hq
    · change v ∈ ImportGraph.neighbours (p.graph.addAll f.uri [w.source]).imports u ↔ _
      by_cases hu : u = f.uri
      · subst hu
        rw [ImportGraph.mem_neighbours_addAll, List.mem_singleton]
        exact or_congr_right ⟨fun ⟨hv, hu⟩ => ⟨hu, rfl, hcount.mp hq, hv.symm⟩,
          fun ⟨hu, _, _, hv⟩ => ⟨hv.symm, hu⟩⟩
      · rw [ImportGraph.neighbours, ImportGraph.get?_imports_addAll _ hu]
        exact (or_iff_left fun h => hu h.2.1.symm).symm
    · exact (or_iff_left fun h => hq (hcount.mpr h.2.2.1)).symm

theorem mem_neighbours_resolveFound (hr : p.Recalls fun _ => True) (hl : p.store.Lists p.roll)
    {work : List Found} (hd : work.Pairwise fun f g => f.key ≠ g.key) :
    v ∈ ImportGraph.neighbours (p.resolveFound work).1.graph.imports u ↔
      v ∈ ImportGraph.neighbours p.graph.imports u ∨ v ≠ u ∧ ∃ f ∈ work, f.Joins p u v := by
  rw [resolveFound_eq]
  induction work generalizing p with
  | nil => simp
  | cons f work ih =>
    obtain ⟨hf, hd⟩ := List.pairwise_cons.mp hd
    have hrest : ∀ g ∈ work, g.Joins (p.supplyImport f.uri f.name f.target).1 u v ↔
        g.Joins p u v := by
      intro g hg
      refine and_congr_right fun hu => ?_
      have hne : ¬(f.uri = u ∧ f.name = g.name) := fun h =>
        hf g hg (Prod.ext (h.1.trans hu.symm) h.2)
      rw [waiting?_supplyImport_of_ne hne]
    have hstep := ih (hr.supply hl f.uri f.name f.target)
      ((completed_supplyImport _ _ _ _).lists hl) hd
    refine hstep.trans ?_
    rw [mem_neighbours_supplyImport hr.continues, List.exists_mem_cons_iff]
    have hsame : (∃ g ∈ work, g.Joins (p.supplyImport f.uri f.name f.target).1 u v) ↔
        ∃ g ∈ work, g.Joins p u v := exists_congr fun g => and_congr_right fun hg => hrest g hg
    rw [hsame, or_assoc, ← and_or_left]

theorem mem_neighbours_enter {bs : List Bound} (h : (p.session tree scope).Carries bs) :
    v ∈ ImportGraph.neighbours (p.enter tree scope).graph.imports scope.uri ↔
      v ≠ scope.uri ∧ ∃ b ∈ bs, ∃ e ∈ b.symbol.edges, e.origin = .otherUnit v := by
  change v ∈ ImportGraph.neighbours ((p.graph.forget scope.uri).addAll scope.uri
    (p.session tree scope).imported).imports scope.uri ↔ _
  rw [ImportGraph.mem_neighbours_addAll, h.mem_imported, and_comm (b := v ≠ scope.uri),
    ImportGraph.neighbours, ImportGraph.get?_imports_forget, if_pos rfl]
  exact or_iff_right (Roster.not_mem_empty v)

/-- **The units that a unit imports once it is bound**: those that its symbols depend on from the
start, and those of its imports that are answered, if a symbol waits for them. -/
theorem mem_neighbours_bind (hl : p.store.Lists p.roll) (hr : p.Recalls fun _ => True)
    (hn : p.units.get? scope.uri = none) (hf : scope.IsFresh) {bs : List Bound}
    (h : (p.session tree scope).Carries bs) :
    v ∈ ImportGraph.neighbours (p.bind tree scope).1.graph.imports scope.uri ↔ v ≠ scope.uri ∧
      ((∃ b ∈ bs, ∃ e ∈ b.symbol.edges, e.origin = .otherUnit v) ∨
        ∃ n, (n, v) ∈ scope.requests ∧ (∃ b ∈ bs, n ∈ b.deferred.map Deferral.name) ∧
          ((p.enter tree scope).exportedName? v n).isSome = true) := by
  have hl₁ : (p.enter tree scope).store.Lists _ := lists_enter hl hn
  have hr₁ : (p.enter tree scope).Recalls fun _ => True := hr.enter hl hf fun _ _ => trivial
  have hrequest : ∀ n, (n, v) ∈ scope.requests ↔
      ∃ w, (p.session tree scope).scope.waiting.get? n = some w ∧ w.source = v := by
    intro n
    rw [← requests_session tree hl, Scope.mem_requests]
  have hfound : (∃ f ∈ (p.enter tree scope).findable scope.uri,
        f.Joins (p.enter tree scope) scope.uri v) ↔
      ∃ n, (n, v) ∈ scope.requests ∧ (∃ b ∈ bs, n ∈ b.deferred.map Deferral.name) ∧
        ((p.enter tree scope).exportedName? v n).isSome = true := by
    constructor
    · rintro ⟨f, hfm, hu, w, hw, hq, rfl⟩
      obtain ⟨w', hw', -, ht⟩ := waiting?_of_mem_findable hfm
      rw [hu, hw, Option.some.injEq] at hw'
      rw [waiting?_enter, if_pos rfl] at hw
      exact ⟨f.name, (hrequest f.name).mpr ⟨w, hw, rfl⟩, (h.queue_ne_nil_iff hw).mp hq,
        Option.isSome_of_eq_some (hw' ▸ ht)⟩
    · rintro ⟨n, hm, hb, ht⟩
      obtain ⟨w, hw, rfl⟩ := (hrequest n).mp hm
      obtain ⟨t, ht⟩ := Option.isSome_iff_exists.mp ht
      have hwait : (p.enter tree scope).waiting? scope.uri n = some w := by
        rw [waiting?_enter, if_pos rfl, hw]
      exact ⟨⟨scope.uri, n, t⟩, mem_findable hwait (.inl rfl) ht, rfl, w, hwait,
        (h.queue_ne_nil_iff hw).mpr hb, rfl⟩
  rw [bind_eq_of_new hn, mem_neighbours_resolveFound hr₁ hl₁ (pairwise_findable _ _),
    mem_neighbours_enter h, hfound]
  exact and_or_left.symm

end Project

end Bindery
