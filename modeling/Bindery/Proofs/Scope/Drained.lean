import Mathlib.Tactic.SplitIfs
import Bindery.Scope.Basic
import Bindery.Proofs.Table

/-!
# Scopes without their queues

What the names of a unit mean does not depend on what waits for them.

* `Scope.drained`: the scope with nothing in its queues.
* `Scope.drained_await`, `Scope.drained_dropStale`: the operations on queues leave the rest alone.
* `Scope.meaning_of_drained`: the meaning of a name.
-/

namespace Bindery.Scope

/-- The scope with nothing in its queues. -/
def drained (s : Scope) : Scope :=
  { s with waiting := s.waiting.mapValues fun _ w => { w with queue := [] } }

variable (s : Scope)

theorem get?_waiting_drained (n : String) : s.drained.waiting.get? n =
    (s.waiting.get? n).map fun w => { w with queue := [] } := Table.get?_mapValues _ _ _

theorem drained_await (n : String) (r : WaitingReference) : (s.await n r).drained = s.drained := by
  unfold drained await
  congr 1
  refine Table.ext_get? ?_ fun k => ?_
  · rw [Table.keys_mapValues, Table.keys_mapValues, Table.keys_modify]
  · rw [Table.get?_mapValues, Table.get?_mapValues, Table.get?_modify]
    split_ifs
    · rw [Option.map_map]
      rfl
    · rfl

theorem drained_dropStale (alive : SymbolId → Bool) : (s.dropStale alive).drained = s.drained := by
  unfold drained dropStale
  congr 1
  refine Table.ext_get? ?_ fun k => ?_
  · rw [Table.keys_mapValues, Table.keys_mapValues, Table.keys_mapValues]
  · rw [Table.get?_mapValues, Table.get?_mapValues, Table.get?_mapValues, Option.map_map]
    rfl

/-! ## What scopes with the same names share -/

section Share

variable {s} {t : Scope} (h : s.drained = t.drained)

include h

theorem uri_of_drained : s.uri = t.uri := (congrArg uri h :)

theorem path_of_drained : s.path = t.path := (congrArg path h :)

theorem kind_of_drained : s.kind = t.kind := (congrArg kind h :)

theorem locals_of_drained : s.locals = t.locals := (congrArg locals h :)

theorem imports_of_drained : s.imports = t.imports := (congrArg imports h :)

theorem packages_of_drained : s.packages = t.packages := (congrArg packages h :)

theorem builtins_of_drained : s.builtins = t.builtins := (congrArg builtins h :)

theorem isLibrary_of_drained : s.isLibrary = t.isLibrary := by
  rw [isLibrary, kind_of_drained h, isLibrary]

/-- The unit that an import waits for. -/
theorem source_of_drained (n : String) : (s.waiting.get? n).map WaitingImport.source =
    (t.waiting.get? n).map WaitingImport.source := by
  have hn := congrArg (fun s => (s.waiting.get? n).map WaitingImport.source) h
  simpa only [get?_waiting_drained, Option.map_map, Function.comp_def] using hn

theorem contains_waiting_of_drained (n : String) :
    s.waiting.contains n = t.waiting.contains n := by
  rw [Table.contains, ← Option.isSome_map (f := WaitingImport.source), source_of_drained h,
    Option.isSome_map, Table.contains]

theorem hasLocal_of_drained (n : String) : s.hasLocal n = t.hasLocal n := by
  rw [hasLocal, locals_of_drained h, hasLocal]

theorem hasImport_of_drained (n : String) : s.hasImport n = t.hasImport n := by
  rw [hasImport, imports_of_drained h, contains_waiting_of_drained h, packages_of_drained h,
    hasImport]

theorem isBuiltin_of_drained (n : String) : s.isBuiltin n = t.isBuiltin n := by
  rw [isBuiltin, builtins_of_drained h, isBuiltin]

/-- **The meaning of a name** does not depend on what waits for it. -/
theorem meaning_of_drained (n : String) : s.meaning n = t.meaning n := by
  have hw := source_of_drained h n
  rw [meaning, meaning, locals_of_drained h, imports_of_drained h, packages_of_drained h]
  cases hs : s.waiting.get? n <;> cases ht : t.waiting.get? n <;> rw [hs, ht] at hw
  · cases hw
  · cases hw
  · rw [Option.map_some, Option.map_some, Option.some.injEq] at hw
    simp only [hw]

end Share

end Bindery.Scope
