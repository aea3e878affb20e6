import Bindery.Proofs.Project.Run

/-!
# What waits belongs to someone

Queues are filled while units are bound, and only then. A reference that waits in a project is one
of a symbol that is still there.

* `Scope.IsFresh`, `Action.IsFresh`: the scopes that a project is handed have empty queues.
* `Project.IsTidy`: no queue holds references of symbols that have gone.
* **`History.isTidy_run`**: none does, after any run.
-/

namespace Bindery

/-- Nothing waits yet: whoever fills a scope can add imports to it, but no references. -/
def Scope.IsFresh (s : Scope) : Prop := ∀ n, s.queueOf n = []

/-- An import that begins to wait has an empty queue. -/
theorem Scope.IsFresh.addWaiting {s : Scope} (h : s.IsFresh) (name source : String) :
    (s.addWaiting name source).IsFresh := by
  intro n
  rw [Scope.queueOf, Scope.addWaiting, Table.get?_insert]
  split_ifs
  · rfl
  · exact h n

/-- The scope of a unit to be bound is fresh. -/
def Action.IsFresh : Action → Prop
  | .bind _ scope => scope.IsFresh
  | .unload _ => True
  | .supply _ _ _ => True

namespace Project

/-- **Every reference that waits belongs to a symbol that is there.** -/
def IsTidy (p : Project) : Prop :=
  ∀ uri name w, p.waiting? uri name = some w →
    ∀ r ∈ w.queue, (p.symbol? r.symbol).isSome = true

variable {p p' : Project} {tree : Tree} {scope : Scope}

theorem IsTidy.completed (h : p.IsTidy) (hc : p.Completed p') : p'.IsTidy := by
  intro uri name w hw r hr
  have hs := h uri name w (hc.waiting uri name w hw) r hr
  rwa [← Option.isSome_map (f := Symbol.bare), hc.bare, Option.isSome_map]

theorem IsTidy.unload (h : p.IsTidy) (uri : String) : (p.unload uri).1.IsTidy := by
  unfold Project.unload
  cases p.units.get? uri with
  | none => exact h
  | some unit =>
    intro k name w hw r hr
    obtain ⟨u, hu, hw⟩ := Option.bind_eq_some_iff.mp hw
    rw [Table.get?_mapValues] at hu
    obtain ⟨u, -, rfl⟩ := Option.map_eq_some_iff.mp hu
    rw [← Scope.queueOf_of_get? hw] at hr
    exact Scope.mem_queueOf_dropStale _ hr

theorem IsTidy.enter (h : p.IsTidy) (hl : p.store.Lists p.roll)
    (hn : p.units.get? scope.uri = none) (hf : scope.IsFresh) : (p.enter tree scope).IsTidy := by
  intro k name w hw r hr
  obtain ⟨u, hu, hw⟩ := Option.bind_eq_some_iff.mp hw
  have hu' := hu
  rw [Project.enter, Table.get?_insert] at hu'
  split_ifs at hu' with hk
  · cases hu'
    have hown : (p.session tree scope).Owns name := owns_session (hf name)
    have hid := hown r (Scope.queueOf_of_get? hw ▸ hr)
    obtain ⟨x, hx, -⟩ := symbol?_of_mem_symbols (lists_enter hl hn) hu hid
    rw [hx]
    rfl
  · have hold : p.waiting? k name = some w := by
      rw [waiting?, hu']
      exact hw
    obtain ⟨x, hx⟩ := Option.isSome_iff_exists.mp (h k name w hold r hr)
    rw [symbol?_enter hl hx]
    rfl

end Project

namespace History

/-- **Every reference that waits belongs to a symbol that is there**, after every run. -/
theorem isTidy_run (options : Options) {actions : List Action} (hf : ∀ a ∈ actions, a.IsFresh) :
    (run options actions).project.IsTidy := by
  refine (run_induction (P := fun h => h.project.store.Lists h.project.roll ∧ h.project.IsTidy)
    ⟨Store.lists_empty, fun _ _ _ hw => by cases hw⟩ fun h a ha hp => ?_).2
  obtain ⟨hl, ht⟩ := hp
  have hfresh := hf a ha
  cases a with
  | bind tree scope =>
    have henter : ((h.project.unload scope.uri).1.enter tree scope).IsTidy :=
      (ht.unload scope.uri).enter (Project.lists_unload hl) Project.get?_unload_self hfresh
    exact ⟨Project.lists_bind hl tree scope, henter.completed (Project.completed_resolveFound _ _)⟩
  | unload uri => exact ⟨Project.lists_unload hl, ht.unload uri⟩
  | supply uri name target =>
    have hc := Project.completed_supplyImport h.project uri name target
    exact ⟨hc.lists hl, ht.completed hc⟩

end History

end Bindery
