import Bindery.Project.Basic
import Bindery.Proofs.Store.Roll
import Bindery.Proofs.Table

/-!
# Late imports

What finding a waiting import changes, and what it leaves alone.

* `Project.roll`: the symbols of the bound units, unit by unit.
* `Project.awaited?`: the unit that an import of another unit waits for.
* `Project.Completed`: what stays when waiting imports are found.
* **`Project.completed_supplyImport`**, **`Project.completed_resolveFound`**: one import, and
  several.
-/

namespace Bindery

/-! ## Settling what has waited -/

namespace Store

/-- What a late import does to a symbol that has waited for it. -/
def settled (name target source : String) (parent : Option SymbolId) (s : Symbol)
    (r : WaitingReference) : Symbol :=
  (s.settle name target source r).updateClass (Project.adoptParent target parent)

/-- What a late import does to the symbols of a store. -/
def settleAll (name target source : String) (parent : Option SymbolId) (s : Store)
    (queue : List WaitingReference) : Store :=
  queue.foldl (fun s r => { s with
    symbols := s.symbols.modify r.symbol fun x => settled name target source parent x r }) s

variable {name target source : String} {parent : Option SymbolId}

@[simp] theorem bare_settled (x : Symbol) (r : WaitingReference) :
    (settled name target source parent x r).bare = x.bare := by
  rw [settled, Symbol.bare_updateClass, Symbol.bare_settle]

theorem names_settleAll (queue : List WaitingReference) (s : Store) :
    (s.settleAll name target source parent queue).names = s.names := by
  induction queue generalizing s with
  | nil => rfl
  | cons r queue ih => exact ih _

theorem count_settleAll (queue : List WaitingReference) (s : Store) :
    (s.settleAll name target source parent queue).symbols.count = s.symbols.count := by
  induction queue generalizing s with
  | nil => rfl
  | cons r queue ih => exact ih _

theorem sound_settleAll (queue : List WaitingReference) {s : Store} (h : s.symbols.Sound) :
    (s.settleAll name target source parent queue).symbols.Sound := by
  induction queue generalizing s with
  | nil => exact h
  | cons r queue ih => exact ih (h.modify _ _)

/-- A symbol is settled once for each of its references in the queue, in order. -/
theorem symbol?_settleAll (queue : List WaitingReference) (s : Store) (id : SymbolId) :
    (s.settleAll name target source parent queue).symbol? id = (s.symbol? id).map fun x =>
      (queue.filter (·.symbol = id)).foldl (settled name target source parent) x := by
  induction queue generalizing s with
  | nil => simp [settleAll]
  | cons r queue ih =>
    refine (ih _).trans ?_
    change ((Arena.modify _ _ _).get? id).map _ = _
    rw [Arena.get?_modify]
    by_cases hr : id = r.symbol
    · rw [if_pos hr, List.filter_cons_of_pos (by simpa using hr.symm), Option.map_map]
      rfl
    · rw [if_neg hr, List.filter_cons_of_neg (by simpa using Ne.symm hr)]
      rfl

theorem bare_settleAll (queue : List WaitingReference) (s : Store) :
    (s.settleAll name target source parent queue).bare = s.bare := by
  induction queue generalizing s with
  | nil => rfl
  | cons r queue ih =>
    refine (ih _).trans ?_
    rw [Store.bare, Store.bare, Arena.map_modify fun x => bare_settled x r]

theorem bare_symbol?_settleAll (queue : List WaitingReference) (s : Store) (id : SymbolId) :
    ((s.settleAll name target source parent queue).symbol? id).map Symbol.bare =
      (s.symbol? id).map Symbol.bare := by
  rw [← symbol?_bare, bare_settleAll, symbol?_bare]

end Store

namespace Project

theorem store_complete (name target source : String) (parent : Option SymbolId)
    (queue : List WaitingReference) (c : Completion) :
    (queue.foldl (complete name target source parent) c).store =
      c.store.settleAll name target source parent queue := by
  induction queue generalizing c with
  | nil => rfl
  | cons r queue ih =>
    rw [List.foldl_cons, ih, Store.settleAll, Store.settleAll, List.foldl_cons]
    congr 1
    unfold complete
    cases hx : c.store.symbol? r.symbol with
    | none => rw [Arena.modify_of_none hx]
    | some x => rfl

/-! ## What a project holds -/

/-- The roll of a unit. -/
def unitRoll (e : String × BoundUnit) : List Listing :=
  e.2.symbols.map fun id => ⟨id, e.1, !e.2.scope.isLibrary⟩

/-- The roll of all units, the one bound last at the end. -/
def roll (p : Project) : List Listing := p.units.entries.flatMap unitRoll

/-- An import of a unit that waits. -/
def waiting? (p : Project) (uri name : String) : Option WaitingImport :=
  (p.units.get? uri).bind fun u => u.scope.waiting.get? name

/-- The unit that an import waits for. -/
def awaited? (p : Project) (uri name : String) : Option String :=
  (p.waiting? uri name).map WaitingImport.source

variable {p p' p'' : Project}

theorem idsIn_of_get? {uri : String} {u : BoundUnit} (h : p.units.get? uri = some u) :
    p.idsIn uri = u.symbols := by
  rw [idsIn, h]
  rfl

/-- **What stays when waiting imports are found**: the symbols apart from their references, their
names and their units. No import begins to wait. -/
structure Completed (p p' : Project) : Prop where
  options : p'.options = p.options
  builtins : p'.builtins = p.builtins
  names : p'.store.names = p.store.names
  sound : p.store.symbols.Sound → p'.store.symbols.Sound
  bare : ∀ id, (p'.symbol? id).map Symbol.bare = (p.symbol? id).map Symbol.bare
  roll : p'.roll = p.roll
  idsIn : ∀ uri, p'.idsIn uri = p.idsIn uri
  waiting : ∀ uri name w, p'.waiting? uri name = some w → p.waiting? uri name = some w

theorem Completed.refl (p : Project) : p.Completed p :=
  ⟨rfl, rfl, rfl, id, fun _ => rfl, rfl, fun _ => rfl, fun _ _ _ h => h⟩

theorem Completed.trans (h : p.Completed p') (h' : p'.Completed p'') : p.Completed p'' where
  options := h'.options.trans h.options
  builtins := h'.builtins.trans h.builtins
  names := h'.names.trans h.names
  sound hs := h'.sound (h.sound hs)
  bare id := (h'.bare id).trans (h.bare id)
  roll := h'.roll.trans h.roll
  idsIn uri := (h'.idsIn uri).trans (h.idsIn uri)
  waiting uri name w hw := h.waiting uri name w (h'.waiting uri name w hw)

theorem Completed.awaited? (hc : p.Completed p') {uri name source : String}
    (ha : p'.awaited? uri name = some source) : p.awaited? uri name = some source := by
  obtain ⟨w, hw, rfl⟩ := Option.map_eq_some_iff.mp ha
  rw [Project.awaited?, hc.waiting _ _ _ hw]
  rfl

/-! ## One import -/

/-- The scope after one of its waiting imports has been found. -/
def foundScope (s : Scope) (name target source : String) : Scope :=
  { s with waiting := s.waiting.erase name }.addImport name target source

/-- The parent that a class gets from a late import. -/
def lateParent (p : Project) (target : String) : Option SymbolId :=
  (p.store.names.byQualifiedName? target none).filter p.store.isClassOrInterface

theorem supplyImport_of_none {uri name target : String} (h : p.waiting? uri name = none) :
    p.supplyImport uri name target = (p, 0, []) := by
  cases hu : p.units.get? uri with
  | none => simp [supplyImport, hu]
  | some u =>
    rw [waiting?, hu] at h
    exact supplyImport_of_not_waiting hu h

section Found

variable {uri name : String} {u : BoundUnit} {w : WaitingImport}
  (hu : p.units.get? uri = some u) (hw : u.scope.waiting.get? name = some w) (target : String)

include hu hw

theorem store_supplyImport : (p.supplyImport uri name target).1.store =
    p.store.settleAll name target w.source (p.lateParent target) w.queue := by
  simp only [supplyImport, hu, Scope.completeImport?, hw, Option.map_some]
  exact store_complete _ _ _ _ _ _

theorem units_supplyImport : (p.supplyImport uri name target).1.units =
    p.units.modify uri fun u => { u with scope := foundScope u.scope name target w.source } := by
  have hk : uri ∈ p.units.keys := Table.mem_keys.mpr ⟨u, hu⟩
  simp only [supplyImport, hu, Scope.completeImport?, hw, Option.map_some]
  refine Table.ext_get? ?_ fun k => ?_
  · rw [Table.keys_insert, if_pos hk, Table.keys_modify]
  · rw [Table.get?_insert, Table.get?_modify]
    by_cases hk : k = uri
    · rw [if_pos hk, if_pos hk, hk, hu]
      rfl
    · rw [if_neg hk, if_neg hk]

theorem options_supplyImport : (p.supplyImport uri name target).1.options = p.options ∧
    (p.supplyImport uri name target).1.builtins = p.builtins := by
  simp only [supplyImport, hu, Scope.completeImport?, hw, Option.map_some]
  exact ⟨trivial, trivial⟩

theorem waiting?_supplyImport (k n : String) :
    (p.supplyImport uri name target).1.waiting? k n =
      if k = uri ∧ n = name then none else p.waiting? k n := by
  rw [waiting?, units_supplyImport hu hw, Table.get?_modify, waiting?]
  by_cases hk : k = uri
  · subst hk
    rw [if_pos rfl, hu]
    change ((u.scope.waiting.erase name).get? n) = _
    rw [Table.get?_erase]
    by_cases hn : n = name
    · rw [if_pos hn, if_pos ⟨rfl, hn⟩]
    · rw [if_neg hn, if_neg fun h => hn h.2]
      rfl
  · rw [if_neg hk, if_neg fun h => hk h.1]

end Found

/-- **Finding one import.** -/
theorem completed_supplyImport (p : Project) (uri name target : String) :
    p.Completed (p.supplyImport uri name target).1 := by
  cases hw : p.waiting? uri name with
  | none =>
    rw [supplyImport_of_none hw]
    exact Completed.refl p
  | some w =>
    obtain ⟨u, hu, hw⟩ := Option.bind_eq_some_iff.mp hw
    have hunits := units_supplyImport hu hw target
    have hstore := store_supplyImport hu hw target
    obtain ⟨ho, hb⟩ := options_supplyImport hu hw target
    refine ⟨ho, hb, ?_, fun hs => ?_, fun id => ?_, ?_, fun k => ?_, fun k n w' hk => ?_⟩
    · rw [hstore, Store.names_settleAll]
    · rw [hstore]
      exact Store.sound_settleAll _ hs
    · rw [symbol?, hstore, Store.bare_symbol?_settleAll]
      rfl
    · rw [roll, hunits, Table.modify, Table.mapValues, List.flatMap_map, roll]
      congr 1
      funext e
      show unitRoll (e.1, if e.1 = uri then _ else e.2) = unitRoll e
      split_ifs <;> rfl
    · rw [idsIn, hunits, Table.get?_modify, idsIn]
      split_ifs
      · rw [Option.map_map]
        rfl
      · rfl
    · rw [waiting?_supplyImport hu hw] at hk
      split_ifs at hk
      exact hk

/-! ## Several imports -/

theorem resolveFound_eq (p : Project) (work : List Found) : (p.resolveFound work).1 =
    work.foldl (fun p f => (p.supplyImport f.uri f.name f.target).1) p := by
  unfold resolveFound
  generalize ([] : List Diagnostic) = ds
  induction work generalizing p ds with
  | nil => rfl
  | cons f work ih => exact ih _ _

/-- What every import that is found keeps, several keep. -/
theorem resolveFound_induction {P : Project → Prop} {p : Project} (start : P p)
    (step : ∀ q : Project, ∀ f : Found, P q → P (q.supplyImport f.uri f.name f.target).1)
    (work : List Found) : P (p.resolveFound work).1 := by
  rw [resolveFound_eq]
  exact List.foldlRecOn (motive := P) work _ start fun q hq f _ => step q f hq

theorem completed_resolveFound (p : Project) (work : List Found) :
    p.Completed (p.resolveFound work).1 := by
  rw [resolveFound_eq]
  induction work generalizing p with
  | nil => exact Completed.refl p
  | cons f work ih => exact (completed_supplyImport p f.uri f.name f.target).trans (ih _)

theorem waiting?_supplyImport_self (p : Project) (uri name target : String) :
    (p.supplyImport uri name target).1.waiting? uri name = none := by
  cases hw : p.waiting? uri name with
  | none => rwa [supplyImport_of_none hw]
  | some w =>
    obtain ⟨u, hu, hw⟩ := Option.bind_eq_some_iff.mp hw
    rw [waiting?_supplyImport hu hw, if_pos ⟨rfl, rfl⟩]

theorem waiting?_resolveFound (p : Project) {work : List Found} {f : Found} (hf : f ∈ work) :
    (p.resolveFound work).1.waiting? f.uri f.name = none := by
  rw [resolveFound_eq]
  induction work generalizing p with
  | nil => cases hf
  | cons g work ih =>
    rcases List.mem_cons.mp hf with rfl | hf
    · have hc := completed_resolveFound (p.supplyImport f.uri f.name f.target).1 work
      rw [resolveFound_eq] at hc
      rw [List.foldl_cons, Option.eq_none_iff_forall_ne_some]
      intro w hw
      have hwait := hc.waiting _ _ _ hw
      rw [waiting?_supplyImport_self] at hwait
      cases hwait
    · exact ih _ hf

/-! ## What can be found -/

theorem exportedName?_of_none {p : Project} {uri : String} (h : p.units.get? uri = none)
    (n : String) : p.exportedName? uri n = none := by
  rw [exportedName?, idsIn, h]
  rfl

/-- What can be found for a unit waits, in that unit or for it. -/
theorem waiting?_of_mem_findable {p : Project} {uri : String} {f : Found} (h : f ∈ p.findable uri) :
    ∃ w, p.waiting? f.uri f.name = some w ∧ (f.uri = uri ∨ w.source = uri) ∧
      p.exportedName? w.source f.name = some f.target := by
  obtain ⟨⟨k, unit⟩, hk, h⟩ := List.mem_flatMap.mp h
  obtain ⟨⟨n, w⟩, hw, h⟩ := List.mem_filterMap.mp h
  dsimp only at h
  split_ifs at h with hu
  obtain ⟨t, ht, rfl⟩ := Option.map_eq_some_iff.mp h
  refine ⟨w, ?_, hu, ht⟩
  rw [waiting?, Table.mem_entries.mp hk, Option.bind_some, Table.mem_entries.mp hw]

end Project

end Bindery
