import Bindery.Proofs.Project.Unit
import Bindery.Proofs.Scope.Builtins

/-!
# Runs of a project

* `Action`, `History.step`, `History.run`: units are bound and unloaded and imports found, in any
  order.
* `History.run_induction`: what holds of the empty project and is kept by every action holds after
  every run.
* **`History.lists_run`**: in every run the store holds what the units list.
* **`History.isTail_run`**: the units list the latest of the symbols that have been bound.
-/

namespace Bindery

/-- What is done with a project. -/
inductive Action where
  | bind (tree : Tree) (scope : Scope)
  | unload (uri : String)
  | supply (uri name target : String)

/-- A project, and the ids of all symbols that have been bound so far, in order. -/
structure History where
  project : Project
  issued : List SymbolId := []

namespace Project

variable {p p' : Project}

theorem Completed.lists (hc : p.Completed p') (h : p.store.Lists p.roll) :
    p'.store.Lists p'.roll := by
  rw [hc.roll]
  exact h.congr (hc.sound h.arena) hc.names hc.bare

theorem lists_bind (h : p.store.Lists p.roll) (tree : Tree) (scope : Scope) :
    (p.bind tree scope).1.store.Lists (p.bind tree scope).1.roll :=
  (completed_resolveFound _ _).lists (lists_enter (lists_unload h) get?_unload_self)

theorem map_id_roll_bind (tree : Tree) (scope : Scope) :
    (p.bind tree scope).1.roll.map Listing.id =
      (p.unload scope.uri).1.roll.map Listing.id ++ (p.bind tree scope).2.1 := by
  rw [bind_eq, (completed_resolveFound _ _).roll, roll_enter get?_unload_self, List.map_append,
    unitRoll, List.map_map, ids_bind]
  exact congrArg _ (List.map_id _)

end Project

namespace History

/-- One action. -/
def step (h : History) : Action → History
  | .bind tree scope =>
    let (project, ids, _) := h.project.bind tree scope
    ⟨project, h.issued ++ ids⟩
  | .unload uri => { h with project := (h.project.unload uri).1 }
  | .supply uri name target => { h with project := (h.project.supplyImport uri name target).1 }

/-- Several actions in turn, on a project without units. -/
def run (options : Options) (actions : List Action) : History :=
  actions.foldl step { project := .empty options }

theorem run_eq {options : Options} (h : options.builtins = []) (actions : List Action) :
    run options actions = actions.foldl step { project :=
      { options, builtins := ⟨Builtins.standardNames, Builtins.nodup_standardNames⟩ } } := by
  rw [run, Project.empty, Options.allBuiltins_eq h]

/-- **What every action keeps** holds after every run. -/
theorem run_induction {P : History → Prop} {options : Options} {actions : List Action}
    (start : P { project := .empty options })
    (step : ∀ h, ∀ a ∈ actions, P h → P (h.step a)) : P (run options actions) :=
  List.foldlRecOn (motive := P) actions _ start fun h hp a ha => step h a ha hp

/-- **The store holds what the units list.** -/
theorem lists_run (options : Options) (actions : List Action) :
    (run options actions).project.store.Lists (run options actions).project.roll := by
  refine run_induction (P := fun h => h.project.store.Lists h.project.roll) Store.lists_empty
    fun h a _ hl => ?_
  cases a with
  | bind tree scope => exact Project.lists_bind hl tree scope
  | unload uri => exact Project.lists_unload hl
  | supply uri name target => exact (Project.completed_supplyImport _ _ _ _).lists hl

/-! ## The order of symbols -/

/-- Among the members of `ids`, the last in `log` is the last in `ids`. -/
def IsTail (log ids : List SymbolId) : Prop :=
  ∀ q : SymbolId → Bool, (∀ id, q id = true → id ∈ ids) →
    (log.filter q).getLast? = (ids.filter q).getLast?

variable {log ids : List SymbolId}

theorem IsTail.filter (h : IsTail log ids) (keep : SymbolId → Bool) :
    IsTail log (ids.filter keep) := by
  intro q hq
  rw [List.filter_filter, h q fun id hid => List.mem_of_mem_filter (hq id hid)]
  congr 1
  refine List.filter_congr fun id _ => ?_
  by_cases hid : q id = true
  · rw [(List.mem_filter.mp (hq id hid)).2, Bool.and_true]
  · simp [hid]

theorem IsTail.append (h : IsTail log ids) (new : List SymbolId) :
    IsTail (log ++ new) (ids ++ new) := by
  intro q hq
  rw [List.filter_append, List.filter_append, List.getLast?_append, List.getLast?_append]
  cases hn : (new.filter q).getLast? with
  | some id => rfl
  | none =>
    have hnew := List.filter_eq_nil_iff.mp (List.getLast?_eq_none_iff.mp hn)
    rw [Option.none_or, Option.none_or]
    refine h q fun id hid => ?_
    rcases List.mem_append.mp (hq id hid) with hm | hm
    · exact hm
    · exact absurd hid (hnew id hm)

/-- **The units list the latest of the symbols that have been bound.** -/
theorem isTail_run (options : Options) (actions : List Action) :
    IsTail (run options actions).issued
      ((run options actions).project.roll.map Listing.id) := by
  refine (run_induction (P := fun h => h.project.store.Lists h.project.roll ∧
    IsTail h.issued (h.project.roll.map Listing.id)) ⟨Store.lists_empty, fun _ _ => rfl⟩
    fun h a _ hl => ?_).2
  obtain ⟨hl, ht⟩ := hl
  have hunload : ∀ uri, IsTail h.issued ((h.project.unload uri).1.roll.map Listing.id) :=
    fun uri => by
      rw [Project.map_id_roll_unload hl]
      exact ht.filter _
  cases a with
  | bind tree scope =>
    refine ⟨Project.lists_bind hl tree scope, ?_⟩
    show IsTail (h.issued ++ _) ((h.project.bind tree scope).1.roll.map Listing.id)
    rw [Project.map_id_roll_bind]
    exact (hunload _).append _
  | unload uri => exact ⟨Project.lists_unload hl, hunload uri⟩
  | supply uri name target =>
    have hc := Project.completed_supplyImport h.project uri name target
    refine ⟨hc.lists hl, ?_⟩
    show IsTail h.issued ((h.project.supplyImport uri name target).1.roll.map Listing.id)
    rwa [hc.roll]

end History

end Bindery
