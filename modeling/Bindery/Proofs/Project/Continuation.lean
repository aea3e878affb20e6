import Bindery.Proofs.Binding.Reports
import Bindery.Proofs.Project.Late
import Bindery.Proofs.Project.Past

/-!
# Whatever waits can be completed

A reference that waits for an import belongs to a symbol that is there, and has the entry that is
filled in when the import is found. Nothing is passed over then, and nothing is reported as lost.

* `Project.Answers`: each reference of a queue finds its symbol and its entry when its turn comes.
* **`Project.completed_foldl_complete`**: such a queue is completed as a whole.
* `Project.Continues`: what waits in a project can be completed.
* **`Project.Recalls.continues`**: it can where every symbol has a past.
* `History.stages`, `History.reports`: the projects that an action finds imports in, and what it
  reports.
* **`History.continues_run`**: every run.
-/

namespace Bindery

/-! ## What waits in a unit -/

namespace BoundUnit.Recalls

variable {known : Context → Prop} {store : Store} {u : BoundUnit} {name : String}
  {w : WaitingImport} (h : u.Recalls known store) (hw : u.scope.waiting.get? name = some w)

include h hw

theorem belongs {r : WaitingReference} (hr : r ∈ w.queue) : r.symbol ∈ u.symbols ∧
      ∃ x, store.symbol? r.symbol = some x ∧ (r.placed = true → x.table.contains name = true) := by
  have hid := h.owns name r (Scope.queueOf_of_get? hw ▸ hr)
  obtain ⟨x, past, hx, -, hp⟩ := h.past r.symbol hid
  refine ⟨hid, x, hx, fun hplaced => ?_⟩
  obtain ⟨-, -, hq⟩ := hp.waits name w hw
  obtain ⟨_, -, hb⟩ := hp.declared
  have hmem : r ∈ w.queue.filter (·.symbol = r.symbol) := List.mem_filter.mpr ⟨hr, by simp⟩
  rw [hq] at hmem
  obtain ⟨d, hd, hdr⟩ := List.mem_map.mp hmem
  obtain ⟨hd, hn⟩ := List.mem_filter.mp hd
  have hentry := hb.contains_of_placed hd (by rw [← hplaced, ← hdr]; rfl)
  rw [show d.name = name by simpa using hn] at hentry
  rw [hp.symbol, Table.contains, Symbol.get?_table_learnAll, Option.isSome_map]
  exact hentry

theorem once : (w.queue.map WaitingReference.symbol).Nodup := by
  rw [List.nodup_iff_count_le_one]
  intro id
  by_cases hid : id ∈ u.symbols
  · obtain ⟨x, past, -, -, hp⟩ := h.past id hid
    obtain ⟨-, -, hq⟩ := hp.waits name w hw
    obtain ⟨_, -, hb⟩ := hp.declared
    have hone := List.nodup_iff_count_le_one.mp hb.nodup_deferred name
    have hcount : (w.queue.map WaitingReference.symbol).count id =
        (past.bound.deferred.map Deferral.name).count name := by
      rw [List.count, List.countP_map, List.countP_eq_length_filter, List.count, List.countP_map,
        List.countP_eq_length_filter]
      simpa [Function.comp_def, beq_eq_decide] using congrArg List.length hq
    rwa [hcount]
  · rw [List.count_eq_zero_of_not_mem]
    · exact Nat.zero_le 1
    · intro hm
      obtain ⟨r, hr, rfl⟩ := List.mem_map.mp hm
      exact hid (belongs h hw hr).1

end BoundUnit.Recalls

namespace Project

/-! ## Completing a queue -/

section Complete

variable (name target source : String) (parent : Option SymbolId)

/-- **Each reference of a queue is answered**: when its turn comes, its symbol is there and has the
entry that it needs. -/
def Answers (c : Completion) (queue : List WaitingReference) : Prop :=
  ∀ before r after, queue = before ++ r :: after →
    ∃ x, (before.foldl (complete name target source parent) c).store.symbol? r.symbol = some x ∧
      x.hasEntryFor name r = true

variable {name} in
theorem complete_of_hasEntryFor {c : Completion} {r : WaitingReference} {x : Symbol}
    (hx : c.store.symbol? r.symbol = some x) (he : x.hasEntryFor name r = true) :
    (complete name target source parent c r).completed = c.completed + 1 ∧
      (complete name target source parent c r).diagnostics = c.diagnostics := by
  simp [complete, hx, he]

variable {name target source parent}

/-- **A queue that is answered is completed as a whole.** -/
theorem completed_foldl_complete {c : Completion} {queue : List WaitingReference}
    (h : Answers name target source parent c queue) :
    (queue.foldl (complete name target source parent) c).completed = c.completed + queue.length ∧
      (queue.foldl (complete name target source parent) c).diagnostics = c.diagnostics := by
  induction queue generalizing c with
  | nil => exact ⟨rfl, rfl⟩
  | cons r queue ih =>
    obtain ⟨x, hx, he⟩ : ∃ x, c.store.symbol? r.symbol = some x ∧ x.hasEntryFor name r = true :=
      h [] r queue rfl
    obtain ⟨hn, hd⟩ := complete_of_hasEntryFor target source parent hx he
    have hrest : Answers name target source parent (complete name target source parent c r) queue :=
      fun before r' after hq => h (r :: before) r' after (by rw [hq, List.cons_append])
    obtain ⟨hn', hd'⟩ := ih hrest
    refine ⟨?_, hd'.trans hd⟩
    rw [List.foldl_cons, hn', hn, List.length_cons]
    omega

theorem contains_foldl_settled (queue : List WaitingReference) (x : Symbol) (n : String) :
    (queue.foldl (Store.settled name target source parent) x).table.contains n =
      x.table.contains n := by
  induction queue generalizing x with
  | nil => rfl
  | cons r queue ih =>
    rw [List.foldl_cons, ih, table_settled, Bool.eq_iff_iff, Table.contains_iff,
      Table.contains_iff, Table.keys_modify]

end Complete

/-! ## Projects -/

/-- **What waits in a project can be completed.** -/
structure Continues (p : Project) : Prop where
  /-- A reference that waits is one of a symbol of its unit, which is there and has an entry if the
  reference has a place. -/
  belongs : ∀ uri u, p.units.get? uri = some u → ∀ name w, u.scope.waiting.get? name = some w →
    ∀ r ∈ w.queue, r.symbol ∈ u.symbols ∧ ∃ x, p.symbol? r.symbol = some x ∧
      (r.placed = true → x.table.contains name = true)
  /-- A symbol waits once for a name. -/
  once : ∀ uri name w, p.waiting? uri name = some w →
    (w.queue.map WaitingReference.symbol).Nodup
  /-- When the import is found, no reference is passed over, and none has lost its entry. -/
  answers : ∀ uri name w, p.waiting? uri name = some w → ∀ target,
    Answers name target w.source (p.lateParent target) { store := p.store } w.queue
  /-- All of them are counted. -/
  counted : ∀ uri name w, p.waiting? uri name = some w → ∀ target,
    (p.supplyImport uri name target).2 = (w.queue.length, [])
  /-- Nothing happens where nothing waits. -/
  idle : ∀ uri name, p.waiting? uri name = none → ∀ target,
    p.supplyImport uri name target = (p, 0, [])
  /-- Nothing happens when an import is found again. -/
  again : ∀ uri name target target', let p' := (p.supplyImport uri name target).1
    p'.supplyImport uri name target' = (p', 0, [])

variable {known : Context → Prop} {p : Project}

theorem Recalls.answers (h : p.Recalls known) {uri name : String} {w : WaitingImport}
    (hw : p.waiting? uri name = some w) (target : String) :
    Answers name target w.source (p.lateParent target) { store := p.store } w.queue := by
  obtain ⟨u, hu, hw⟩ := Option.bind_eq_some_iff.mp hw
  intro before r after hq
  have hr : r ∈ w.queue := hq ▸ List.mem_append_right _ List.mem_cons_self
  obtain ⟨-, x, hx, hentry⟩ := (h uri u hu).belongs hw hr
  rw [store_complete, Store.symbol?_settleAll, hx]
  refine ⟨_, rfl, ?_⟩
  rw [Symbol.hasEntryFor, contains_foldl_settled]
  cases hp : r.placed with
  | false => rw [Bool.not_false, Bool.or_true]
  | true => rw [hentry hp, Bool.true_or]

theorem snd_supplyImport {uri name : String} {u : BoundUnit} {w : WaitingImport}
    (hu : p.units.get? uri = some u) (hw : u.scope.waiting.get? name = some w) (target : String) :
    (p.supplyImport uri name target).2 =
      let c := w.queue.foldl (complete name target w.source (p.lateParent target))
        { store := p.store }
      (c.completed, c.diagnostics) := by
  simp only [supplyImport, hu, Scope.completeImport?, hw, Option.map_some]
  rfl

/-- **What waits can be completed** where every symbol has a past. -/
theorem Recalls.continues (h : p.Recalls known) : p.Continues where
  belongs uri u hu name w hw r hr := (h uri u hu).belongs hw hr
  once uri name w hw := by
    obtain ⟨u, hu, hw⟩ := Option.bind_eq_some_iff.mp hw
    exact (h uri u hu).once hw
  answers uri name w hw target := h.answers hw target
  counted uri name w hw target := by
    obtain ⟨hn, hd⟩ := completed_foldl_complete (h.answers hw target)
    obtain ⟨u, hu, hw⟩ := Option.bind_eq_some_iff.mp hw
    rw [snd_supplyImport hu hw, Prod.mk.injEq]
    exact ⟨hn.trans (Nat.zero_add _), hd⟩
  idle uri name hw target := supplyImport_of_none hw
  again uri name target target' := supplyImport_of_none (waiting?_supplyImport_self p _ _ _)

/-! ## Reports -/

theorem Recalls.forget (h : p.Recalls known) : p.Recalls fun _ => True := by
  intro uri u hu
  refine ⟨(h uri u hu).owns, fun id hid => ?_⟩
  obtain ⟨x, past, hx, -, hp⟩ := (h uri u hu).past id hid
  exact ⟨x, past, hx, trivial, hp⟩

theorem Continues.reports_supplyImport (h : p.Continues) (uri name target : String) :
    (p.supplyImport uri name target).2.2 = [] := by
  cases hw : p.waiting? uri name with
  | none => rw [h.idle uri name hw]
  | some w => rw [h.counted uri name w hw]

theorem Recalls.reports_resolveFound (h : p.Recalls known) (hl : p.store.Lists p.roll)
    (work : List Found) : (p.resolveFound work).2 = [] := by
  refine (List.foldlRecOn (motive := fun state : Project × List Diagnostic =>
    state.1.Recalls known ∧ state.1.store.Lists state.1.roll ∧ state.2 = []) work _ ⟨h, hl, rfl⟩
    fun state hs f _ => ?_).2.2
  obtain ⟨p, ds⟩ := state
  obtain ⟨h, hl, rfl⟩ := hs
  refine ⟨h.supply hl f.uri f.name f.target, (completed_supplyImport _ _ _ _).lists hl, ?_⟩
  exact (List.nil_append _).trans (h.continues.reports_supplyImport _ _ _)

theorem Session.code_of_mem_take {s : Session} {b : Bound} {d : Diagnostic}
    (h : d ∈ (s.take b).diagnostics) : d ∈ s.diagnostics ∨ d.code = 1004 := by
  rcases List.mem_append.mp h with h | h
  · exact .inl h
  · obtain ⟨_, -, rfl⟩ := Option.map_eq_some_iff.mp (Option.mem_toList.mp h)
    exact .inr (Diagnostic.code_ofProblem _ _ _)

theorem reports_bind (p : Project) (tree : Tree) (scope : Scope) :
    let p' := (p.unload scope.uri).1.enter tree scope
    (p.bind tree scope).2.2 = ((p.unload scope.uri).1.session tree scope).diagnostics ++
      (p'.resolveFound (p'.findable scope.uri)).2 := rfl

theorem code_of_mem_session {tree : Tree} {scope : Scope} {d : Diagnostic}
    (h : d ∈ (p.session tree scope).diagnostics) : d.code ∈ [1001, 1002, 1003, 1004] := by
  have htake : ∀ (s : Session) (bs : List Bound), (∀ d ∈ s.diagnostics,
      d.code ∈ [1001, 1002, 1003, 1004]) → ∀ d ∈ (bs.foldl Session.take s).diagnostics,
        d.code ∈ [1001, 1002, 1003, 1004] := by
    intro s bs hs
    refine List.foldlRecOn (motive := fun s : Session => ∀ d ∈ s.diagnostics,
      d.code ∈ [1001, 1002, 1003, 1004]) bs _ hs fun s hs b _ d hd => ?_
    rcases Session.code_of_mem_take hd with hd | hd
    · exact hs d hd
    · simp [hd]
  have hstart : ∀ d ∈ ({ store := p.store, scope := p.unitScope tree scope } : Session).diagnostics,
      d.code ∈ [1001, 1002, 1003, 1004] := fun d hd => nomatch hd
  refine List.foldlRecOn (motive := fun s : Session => ∀ d ∈ s.diagnostics,
    d.code ∈ [1001, 1002, 1003, 1004]) tree.statements _ hstart (fun s hs statement _ => ?_) d h
  refine htake _ _ fun d hd => ?_
  rcases List.mem_append.mp hd with hd | hd
  · exact hs d hd
  · have hcode := Context.code_of_mem_bind hd
    simp only [List.mem_cons, List.not_mem_nil, or_false] at hcode ⊢
    omega

end Project

namespace History

/-- The projects in which an action looks for what has waited. -/
def stages (h : History) : Action → List Project
  | .bind tree scope =>
    let p := (h.project.unload scope.uri).1.enter tree scope
    (p.findable scope.uri).inits.map fun work => (p.resolveFound work).1
  | .unload _ => []
  | .supply _ _ _ => [h.project]

/-- What an action reports. -/
def reports (h : History) : Action → List Diagnostic
  | .bind tree scope => (h.project.bind tree scope).2.2
  | .unload _ => []
  | .supply uri name target => (h.project.supplyImport uri name target).2.2

/-- **Whatever waits can be completed**, after every run and in the middle of every further action,
so that none reports a reference as lost. -/
theorem continues_run (options : Options) {actions : List Action} (hf : ∀ a ∈ actions, a.IsFresh) :
    (run options actions).project.Continues ∧ ∀ a : Action, a.IsFresh →
      (∀ p ∈ (run options actions).stages a, p.Continues) ∧
        ∀ d ∈ (run options actions).reports a, d.code ≠ 9001 := by
  have hr := recalls_run options hf
  have hl := lists_run options actions
  refine ⟨hr.continues, fun a ha => ?_⟩
  cases a with
  | unload uri => exact ⟨fun p hp => (nomatch hp), fun d hd => (nomatch hd)⟩
  | supply uri name target =>
    refine ⟨fun p hp => ?_, fun d hd => ?_⟩
    · rw [List.mem_singleton.mp hp]
      exact hr.continues
    · rw [reports, hr.continues.reports_supplyImport] at hd
      cases hd
  | bind tree scope =>
    have hl₀ : ((run options actions).project.unload scope.uri).1.store.Lists _ :=
      Project.lists_unload hl
    set p₁ := ((run options actions).project.unload scope.uri).1.enter tree scope with hp₁
    have hl₁ : p₁.store.Lists p₁.roll := Project.lists_enter hl₀ Project.get?_unload_self
    have hr₁ : p₁.Recalls fun _ => True :=
      (hr.unload hl scope.uri).forget.enter hl₀ ha fun _ _ => trivial
    refine ⟨fun p hp => ?_, fun d hd => ?_⟩
    · obtain ⟨work, -, rfl⟩ := List.mem_map.mp hp
      exact (hr₁.resolveFound hl₁ work).continues
    · rw [reports, Project.reports_bind] at hd
      rcases List.mem_append.mp hd with hd | hd
      · have hcode := Project.code_of_mem_session hd
        simp only [List.mem_cons, List.not_mem_nil, or_false] at hcode
        omega
      · rw [hr₁.reports_resolveFound hl₁] at hd
        cases hd

/-- One of the types of an alias is imported from a unit that is not there yet. -/
def waitingActions : List Action := [.bind aliasTree (aliasScope.addWaiting "N" "v.avt")]

theorem isFresh_waitingActions : ∀ a ∈ waitingActions, a.IsFresh := by
  intro a ha
  rw [waitingActions, List.mem_singleton] at ha
  subst ha
  have halias : aliasScope.IsFresh := fun n => rfl
  exact halias.addWaiting "N" "v.avt"

theorem continues_run_waitingActions : (∀ a ∈ waitingActions, a.IsFresh) ∧
    (run {} waitingActions).project.waiting? "u.avt" "N" =
      some ⟨"v.avt", [⟨⟨0, 0⟩, false, true⟩]⟩ ∧
    ((run {} waitingActions).project.supplyImport "u.avt" "N" "Q").2 = (1, []) := by
  have hf := isFresh_waitingActions
  have hw : (run {} waitingActions).project.waiting? "u.avt" "N" =
      some ⟨"v.avt", [⟨⟨0, 0⟩, false, true⟩]⟩ := by
    rw [run_eq rfl]
    decide +kernel
  exact ⟨hf, hw, (continues_run {} hf).1.counted "u.avt" "N" _ hw "Q"⟩

end History

end Bindery
