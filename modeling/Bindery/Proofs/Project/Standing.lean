import Bindery.Proofs.Project.Batch

/-!
# Where a unit stands

As other units come, the imports of a unit are found one after the other. Where a unit stands can be
said without the order: its symbols have been told of the imports that wait no longer, and those are
the ones that a bound unit answers.

* `Project.Answered`: what a symbol has been told of.
* `Project.Stands`: where a unit stands.
* **`Project.Stands.supply`**, **`Project.Stands.resolveFound`**: imports are found.
* **`Project.stands_bind`**, **`Project.Stands.bind`**: the unit is bound, another one is.
* `Project.Stands.answered_iff`: once nothing waits in vain, what is answered can be read off what
  is declared.
-/

namespace Bindery.Project

/-- **What a symbol has been told of**: an import that it was bound to wait for, and that waits no
longer. -/
structure Answered (p : Project) (scope : Scope) (b : Bound) (l : LateImport) : Prop where
  deferral : l.deferral ∈ b.deferred
  request : (l.name, l.source) ∈ scope.requests
  found : p.waiting? scope.uri l.name = none
  target : p.exportedName? l.source l.name = some l.target
  parent : l.parent = none

/-- **A symbol that was bound as `b`** has been told of what was found, and waits for the rest. -/
structure Serves (p : Project) (scope : Scope) (id : SymbolId) (b : Bound) : Prop where
  told : ∃ late, (p.symbol? id).map Symbol.orphan = some (b.symbol.orphan.learnAll late) ∧
    (late.map LateImport.name).Nodup ∧ ∀ l, l ∈ late ↔ p.Answered scope b l
  queue : ∀ n w, p.waiting? scope.uri n = some w →
    w.queue.filter (·.symbol = id) = (b.deferred.filter (·.name = n)).map (Deferral.waiting id)

/-- **Where a unit stands** whose symbols were bound as `bs`. -/
structure Stands (p : Project) (scope : Scope) (bs : List Bound) : Prop where
  symbols : List.Forall₂ (p.Serves scope) (p.idsIn scope.uri) bs
  waits : ∀ n w, p.waiting? scope.uri n = some w → (n, w.source) ∈ scope.requests
  /-- No import was found that is not declared. -/
  found : ∀ n source, (n, source) ∈ scope.requests → p.waiting? scope.uri n = none →
    (p.exportedName? source n).isSome = true
  /-- The unit imports what its symbols depended on from the start, and what they were told of. -/
  imports : ∀ v, v ∈ ImportGraph.neighbours p.graph.imports scope.uri ↔ v ≠ scope.uri ∧
    ((∃ b ∈ bs, ∃ e ∈ b.symbol.edges, e.origin = .otherUnit v) ∨
      ∃ b ∈ bs, ∃ l, p.Answered scope b l ∧ l.source = v)

variable {p : Project} {tree : Tree} {scope : Scope} {id : SymbolId} {b : Bound} {bs : List Bound}
  {f : Found} {l : LateImport} {v : String}

theorem eq_of_mem_requests {n source source' : String} (h : (n, source) ∈ scope.requests)
    (h' : (n, source') ∈ scope.requests) : source = source' := by
  obtain ⟨w, hw, rfl⟩ := Scope.mem_requests.mp h
  obtain ⟨w', hw', rfl⟩ := Scope.mem_requests.mp h'
  rw [hw, Option.some.injEq] at hw'
  rw [hw']

/-! ## Imports are found -/

theorem Continues.joins_iff (hc : p.Continues) (hl : p.store.Lists p.roll) :
    f.Joins p scope.uri v ↔ ∃ id ∈ p.idsIn scope.uri, ∃ l ∈ p.told id f, l.source = v := by
  constructor
  · rintro ⟨hu, w, hw, hq, rfl⟩
    obtain ⟨r, hr⟩ := List.exists_mem_of_ne_nil _ hq
    rw [← hu] at hw ⊢
    refine ⟨r.symbol, ?_, ⟨⟨f.name, r.strong, r.placed⟩, f.target, w.source, p.lateParent f.target⟩,
      ?_, rfl⟩
    · obtain ⟨u, hu, hw⟩ := Option.bind_eq_some_iff.mp hw
      exact mem_idsIn.mpr ⟨u, hu, (hc.belongs f.uri u hu f.name w hw r hr).1⟩
    · rw [told_of_some hw]
      exact List.mem_map_of_mem (List.mem_filter.mpr ⟨hr, by simp⟩)
  · rintro ⟨id, hid, l, hlm, rfl⟩
    have hu := hc.uri_of_mem_told hl hid hlm
    obtain ⟨w, hw, r, hr, -, rfl⟩ := mem_told hlm
    exact ⟨hu, w, hu ▸ hw, List.ne_nil_of_mem hr, rfl⟩

theorem exportedName?_supplyImport (uri n : String) :
    (p.supplyImport f.uri f.name f.target).1.exportedName? uri n = p.exportedName? uri n :=
  exportedName?_of_bare (bare_supplyImport _ _ _) (completed_supplyImport p _ _ _).idsIn uri n

section Supply

variable (hl : p.store.Lists p.roll) (hc : p.Continues) {w : WaitingImport}
  (hw : p.waiting? f.uri f.name = some w) (ht : p.exportedName? w.source f.name = some f.target)

include hw in
theorem waiting?_supplyImport_eq (scope : Scope) (n : String) :
    (p.supplyImport f.uri f.name f.target).1.waiting? scope.uri n =
      if f.uri = scope.uri ∧ n = f.name then none else p.waiting? scope.uri n := by
  obtain ⟨u, hu, hw⟩ := Option.bind_eq_some_iff.mp hw
  rw [waiting?_supplyImport hu hw]
  simp only [eq_comm (a := scope.uri)]

include hl hc hw ht

/-- **What a symbol has been told of** when one more import is found. -/
theorem Serves.answered_supply (h : p.Serves scope id b) (hid : id ∈ p.idsIn scope.uri)
    (hreq : f.uri = scope.uri → (f.name, w.source) ∈ scope.requests) :
    (p.supplyImport f.uri f.name f.target).1.Answered scope b l ↔
      p.Answered scope b l ∨ l ∈ (p.told id f).map LateImport.orphan := by
  have hwait := fun n => waiting?_supplyImport_eq hw scope n
  by_cases hu : f.uri = scope.uri
  · -- What is new is what the symbol has waited for.
    rw [map_orphan_told hw (h.queue f.name w (hu ▸ hw)), Bound.mem_told]
    have hreq := hreq hu
    constructor
    · rintro ⟨hd, hr, hf, ht', hp⟩
      rw [exportedName?_supplyImport] at ht'
      by_cases hn : l.name = f.name
      · have hs : l.source = w.source := eq_of_mem_requests hr (hn ▸ hreq)
        rw [hn, hs, ht, Option.some.injEq] at ht'
        exact .inr ⟨hd, hn, ht'.symm, hs, hp⟩
      · rw [hwait, if_neg fun h => hn h.2] at hf
        exact .inl ⟨hd, hr, hf, ht', hp⟩
    · rintro (⟨hd, hr, hf, ht', hp⟩ | ⟨hd, hn, ht', hs, hp⟩)
      · refine ⟨hd, hr, ?_, (exportedName?_supplyImport _ _).trans ht', hp⟩
        rw [hwait, hf, ite_self]
      · refine ⟨hd, ?_, ?_, (exportedName?_supplyImport _ _).trans ?_, hp⟩
        · rwa [hn, hs]
        · rw [hwait, if_pos ⟨hu, hn⟩]
        · rw [hs, hn, ht, ht']
  · have hnone : p.told id f = [] := by
      rw [List.eq_nil_iff_forall_not_mem]
      exact fun l hlm => hu (hc.uri_of_mem_told hl hid hlm)
    rw [hnone, List.map_nil, or_iff_left List.not_mem_nil]
    constructor
    · rintro ⟨hd, hr, hf, ht', hp⟩
      rw [hwait, if_neg fun h => hu h.1] at hf
      exact ⟨hd, hr, hf, (exportedName?_supplyImport _ _).symm.trans ht', hp⟩
    · rintro ⟨hd, hr, hf, ht', hp⟩
      refine ⟨hd, hr, ?_, (exportedName?_supplyImport _ _).trans ht', hp⟩
      rw [hwait, hf, ite_self]

theorem Serves.source_answered_supply (h : p.Serves scope id b) (hid : id ∈ p.idsIn scope.uri)
    (hreq : f.uri = scope.uri → (f.name, w.source) ∈ scope.requests) (v : String) :
    (∃ l, (p.supplyImport f.uri f.name f.target).1.Answered scope b l ∧ l.source = v) ↔
      (∃ l, p.Answered scope b l ∧ l.source = v) ∨ ∃ l ∈ p.told id f, l.source = v := by
  simp only [h.answered_supply hl hc hw ht hid hreq, or_and_right, exists_or]
  refine or_congr_right ?_
  constructor
  · rintro ⟨_, hm, hs⟩
    obtain ⟨l, hlm, rfl⟩ := List.mem_map.mp hm
    exact ⟨l, hlm, hs⟩
  · rintro ⟨l, hlm, hs⟩
    exact ⟨l.orphan, List.mem_map_of_mem hlm, hs⟩

theorem Serves.supply (h : p.Serves scope id b) (hid : id ∈ p.idsIn scope.uri)
    (hreq : f.uri = scope.uri → (f.name, w.source) ∈ scope.requests) :
    (p.supplyImport f.uri f.name f.target).1.Serves scope id b := by
  obtain ⟨late, hx, hnd, hlate⟩ := h.told
  refine ⟨⟨late ++ (p.told id f).map LateImport.orphan, ?_, ?_, fun l => ?_⟩, fun n v hv => ?_⟩
  · obtain ⟨x, hx, ho⟩ := Option.map_eq_some_iff.mp hx
    rw [symbol?_supplyImport_eq, hx, Option.map_some, Option.map_some, Symbol.orphan_learnAll, ho,
      Symbol.learnAll_append]
  · have hone : ((p.told id f).map LateImport.orphan).map LateImport.name =
        (p.told id f).map LateImport.name := by
      rw [List.map_map]
      rfl
    rw [List.map_append, List.nodup_append, hone]
    refine ⟨hnd, ?_, ?_⟩
    · match p.told id f, hc.length_told f id with
      | [], _ => exact List.nodup_nil
      | [l], _ => exact List.nodup_singleton _
    · -- What was found before waits no longer.
      rintro n hn m hm rfl
      obtain ⟨l, hlm, rfl⟩ := List.mem_map.mp hn
      obtain ⟨k, hk, hkn⟩ := List.mem_map.mp hm
      have hfound := ((hlate l).mp hlm).found
      rw [← hkn, name_of_mem_told hk, ← hc.uri_of_mem_told hl hid hk, hw] at hfound
      cases hfound
  · rw [List.mem_append, hlate, h.answered_supply hl hc hw ht hid hreq]
  · exact h.queue n v ((completed_supplyImport p _ _ _).waiting _ _ _ hv)

end Supply

/-- **One import is found**, in this unit or another one. -/
theorem Stands.supply (h : p.Stands scope bs) (hl : p.store.Lists p.roll) (hc : p.Continues)
    (hf : ∀ w, p.waiting? f.uri f.name = some w →
      p.exportedName? w.source f.name = some f.target) :
    (p.supplyImport f.uri f.name f.target).1.Stands scope bs := by
  cases hw : p.waiting? f.uri f.name with
  | none => rwa [supplyImport_of_none hw]
  | some w =>
    have ht := hf w hw
    have hwait := fun n => waiting?_supplyImport_eq hw scope n
    have hreq : f.uri = scope.uri → (f.name, w.source) ∈ scope.requests := fun hu =>
      h.waits f.name w (hu ▸ hw)
    have hcompleted := completed_supplyImport p f.uri f.name f.target
    have hsymbols : List.Forall₂ (fun id b => id ∈ p.idsIn scope.uri ∧ p.Serves scope id b)
        (p.idsIn scope.uri) bs := (List.forall₂_and_left _ _).mpr ⟨fun id hid => hid, h.symbols⟩
    refine ⟨?symbols, ?waits, ?found, ?imports⟩
    case symbols =>
      rw [hcompleted.idsIn]
      exact hsymbols.imp fun id b hb => hb.2.supply hl hc hw ht hb.1 hreq
    case waits => exact fun n v hv => h.waits n v (hcompleted.waiting _ _ _ hv)
    case found =>
      intro n source hm hnone
      rw [exportedName?_supplyImport]
      rw [hwait] at hnone
      split_ifs at hnone with hu
      · rw [hu.2] at hm ⊢
        rw [eq_of_mem_requests hm (hreq hu.1), ht]
        rfl
      · exact h.found n source hm hnone
    case imports =>
      intro v
      have hanswered := exists_mem_or_congr hsymbols fun id b hb =>
        hb.2.source_answered_supply hl hc hw ht hb.1 hreq v
      rw [mem_neighbours_supplyImport hc, h.imports, hc.joins_iff hl, hanswered, ← and_or_left,
        or_assoc]

theorem Stands.resolveFound (h : p.Stands scope bs) (hl : p.store.Lists p.roll)
    (hr : p.Recalls fun _ => True) {work : List Found} (hf : ∀ f ∈ work, ∀ w,
      p.waiting? f.uri f.name = some w → p.exportedName? w.source f.name = some f.target) :
    (p.resolveFound work).1.Stands scope bs := by
  rw [resolveFound_eq]
  induction work generalizing p with
  | nil => exact h
  | cons f work ih =>
    rw [List.forall_mem_cons] at hf
    have hc := completed_supplyImport p f.uri f.name f.target
    refine ih (h.supply hl hr.continues hf.1) (hc.lists hl) (hr.supply hl _ _ _)
      fun g hg w hw => ?_
    rw [exportedName?_supplyImport]
    exact hf.2 g hg w (hc.waiting _ _ _ hw)

/-! ## Units come -/

theorem exportedName?_enter (hl : p.store.Lists p.roll) {uri : String} (hu : uri ≠ scope.uri)
    (n : String) : (p.enter tree scope).exportedName? uri n = p.exportedName? uri n := by
  rw [exportedName?, idsIn_enter, if_neg hu, exportedName?]
  congr 2
  apply List.filterMap_congr
  intro id hid
  obtain ⟨u, hu, hm⟩ := mem_idsIn.mp hid
  obtain ⟨x, hx, -⟩ := symbol?_of_mem_symbols hl hu hm
  rw [symbol?_enter hl hx, hx]

section Come

variable (hl : p.store.Lists p.roll) (hr : p.Recalls fun _ => True)

include hl

theorem stands_enter (hc : (p.session tree scope).Carries bs) :
    (p.enter tree scope).Stands scope bs := by
  have hwait : ∀ n, (p.enter tree scope).waiting? scope.uri n =
      (p.session tree scope).scope.waiting.get? n := fun n => by rw [waiting?_enter, if_pos rfl]
  have hrequests : (p.session tree scope).scope.requests = scope.requests :=
    requests_session tree hl
  -- All of its imports wait.
  have hsome : ∀ n source, (n, source) ∈ scope.requests →
      (p.enter tree scope).waiting? scope.uri n ≠ none := by
    intro n source hm
    rw [← hrequests, Scope.mem_requests] at hm
    obtain ⟨w, hw, -⟩ := hm
    rw [hwait, hw]
    exact Option.some_ne_none w
  have hno : ∀ b l, ¬(p.enter tree scope).Answered scope b l := fun b l ha =>
    hsome _ _ ha.request ha.found
  refine ⟨?symbols, ?waits, fun n source hm hnone => absurd hnone (hsome n source hm), ?imports⟩
  case symbols =>
    rw [idsIn_enter, if_pos rfl]
    apply hc.holds.imp
    intro id b hb
    refine ⟨⟨[], ?_, List.nodup_nil, fun l => ⟨fun hm => (nomatch hm), fun ha => absurd ha (hno b l)⟩⟩,
      fun n w hw => hb.queue n w ((hwait n).symm.trans hw)⟩
    rw [show (p.enter tree scope).symbol? id = some b.symbol from hb.symbol]
    rfl
  case waits =>
    intro n w hw
    rw [← hrequests, Scope.mem_requests]
    exact ⟨w, (hwait n).symm.trans hw, rfl⟩
  case imports =>
    intro v
    rw [mem_neighbours_enter hc]
    refine and_congr_right fun _ => (or_iff_left ?_).symm
    rintro ⟨b, -, l, ha, -⟩
    exact hno b l ha

/-- **Another unit.** -/
theorem Stands.enter (h : p.Stands scope bs) {other : Scope} (hne : other.uri ≠ scope.uri)
    (hn : p.units.get? other.uri = none) : (p.enter tree other).Stands scope bs := by
  have hwait : ∀ n, (p.enter tree other).waiting? scope.uri n = p.waiting? scope.uri n := fun n => by
    rw [waiting?_enter, if_neg hne.symm]
  -- What was found was declared in another unit than the new one.
  have hexported : ∀ n source, (n, source) ∈ scope.requests → p.waiting? scope.uri n = none →
      (p.enter tree other).exportedName? source n = p.exportedName? source n := by
    intro n source hm hnone
    apply exportedName?_enter hl
    rintro rfl
    have hfound := h.found n _ hm hnone
    rw [exportedName?_of_none hn] at hfound
    cases hfound
  have hanswered : ∀ b l, (p.enter tree other).Answered scope b l ↔ p.Answered scope b l := by
    intro b l
    constructor
    · rintro ⟨hd, hr, hf, ht, hp⟩
      rw [hwait] at hf
      exact ⟨hd, hr, hf, (hexported _ _ hr hf).symm.trans ht, hp⟩
    · rintro ⟨hd, hr, hf, ht, hp⟩
      exact ⟨hd, hr, (hwait _).trans hf, (hexported _ _ hr hf).trans ht, hp⟩
  refine ⟨?symbols, ?waits, ?found, ?imports⟩
  case symbols =>
    rw [idsIn_enter, if_neg hne.symm]
    apply h.symbols.imp
    intro id b ⟨⟨late, hx, hnd, hlate⟩, hqueue⟩
    obtain ⟨x, hx, ho⟩ := Option.map_eq_some_iff.mp hx
    refine ⟨⟨late, ?_, hnd, fun l => (hlate l).trans (hanswered b l).symm⟩,
      fun n w hw => hqueue n w ((hwait n).symm.trans hw)⟩
    rw [symbol?_enter hl hx, Option.map_some, ho]
  case waits => exact fun n w hw => h.waits n w ((hwait n).symm.trans hw)
  case found =>
    intro n source hm hnone
    rw [hwait] at hnone
    rw [hexported n source hm hnone]
    exact h.found n source hm hnone
  case imports =>
    intro v
    have hgraph : (p.enter tree other).graph.imports.get? scope.uri =
        p.graph.imports.get? scope.uri := by
      change (((p.graph.forget other.uri).addAll other.uri _).imports.get? scope.uri) = _
      rw [ImportGraph.get?_imports_addAll _ hne.symm, ImportGraph.get?_imports_forget,
        if_neg hne.symm]
    rw [ImportGraph.neighbours, hgraph, ← ImportGraph.neighbours, h.imports]
    simp only [hanswered]

include hr

theorem stands_bind (hn : p.units.get? scope.uri = none) (hf : scope.IsFresh)
    (hc : (p.session tree scope).Carries bs) : (p.bind tree scope).1.Stands scope bs := by
  rw [bind_eq_of_new hn]
  apply (stands_enter hl hc).resolveFound (lists_enter hl hn) (hr.enter hl hf fun _ _ => trivial)
  intro f hfm w hw
  obtain ⟨w', hw', -, ht⟩ := waiting?_of_mem_findable hfm
  rw [hw, Option.some.injEq] at hw'
  rwa [hw']

theorem Stands.bind (h : p.Stands scope bs) {other : Scope} (hne : other.uri ≠ scope.uri)
    (hn : p.units.get? other.uri = none) (hf : other.IsFresh) :
    (p.bind tree other).1.Stands scope bs := by
  rw [bind_eq_of_new hn]
  apply (h.enter hl hne hn).resolveFound (lists_enter hl hn) (hr.enter hl hf fun _ _ => trivial)
  intro f hfm w hw
  obtain ⟨w', hw', -, ht⟩ := waiting?_of_mem_findable hfm
  rw [hw, Option.some.injEq] at hw'
  rwa [hw']

end Come

/-- **Once nothing waits in vain**, every import that is declared has been found. -/
theorem Stands.answered_iff (h : p.Stands scope bs) (hs : p.IsSettled) :
    p.Answered scope b l ↔ l.deferral ∈ b.deferred ∧ (l.name, l.source) ∈ scope.requests ∧
      p.exportedName? l.source l.name = some l.target ∧ l.parent = none := by
  constructor
  · exact fun ⟨hd, hr, _, ht, hp⟩ => ⟨hd, hr, ht, hp⟩
  · rintro ⟨hd, hr, ht, hp⟩
    refine ⟨hd, hr, ?_, ht, hp⟩
    rw [Option.eq_none_iff_forall_ne_some]
    intro w hw
    have hsource : w.source = l.source := eq_of_mem_requests (h.waits l.name w hw) hr
    have hawaited : p.awaited? scope.uri l.name = some l.source := by
      rw [awaited?, hw, Option.map_some, hsource]
    obtain ⟨id, hid, x, hx, hn, -⟩ := mem_of_exportedName? ht
    exact hs scope.uri l.name l.source hawaited id hid x hx hn

end Bindery.Project
