import Bindery.Proofs.Project.Late
import Bindery.Proofs.Project.Past

/-!
# What no symbol refers to

No symbol depends on itself, keeps track of built-in names or looks up names that are ignored,
neither when it is bound nor when it is told of imports afterwards.

* `Symbol.Excludes`: what a symbol does not refer to.
* **`Context.IsBoundAs.excludes`**, **`Symbol.Excludes.learn`**: a symbol that has just been bound,
  and a late import.
* **`History.excludes_run`**: every symbol, after every run.
-/

namespace Bindery

/-- **What a symbol does not refer to.** -/
structure Symbol.Excludes (builtins : Builtins) (ignored : List String) (x : Symbol) : Prop where
  own : ∀ e ∈ x.edges, e.target ≠ x.qualified
  tracked : ∀ n ∈ x.table.keys, n ≠ x.qualified ∧ n ∉ builtins
  outside : ∀ e ∈ x.edges, e.origin = .package ∨ e.origin = .ambient → e.target ∉ builtins
  /-- Every dependency is on the target of a name that was classified. -/
  classified : ∀ e ∈ x.edges, ∃ n, x.loaded.get? n = some (some e.target)
  unclassified : ∀ n ∈ ignored, n ∉ x.loaded.keys
  unwritten : ∀ n ∈ ignored, ∀ m, x.mentions? n = some m → m.replacement = none

theorem Context.IsBoundAs.excludes {cx : Context} {s : Symbol} {rs : List Reference} {b : Bound}
    (h : cx.IsBoundAs (s, rs) b) : b.symbol.Excludes cx.scope.builtins s.ignored := by
  refine
    { own := fun e he => ?own
      tracked := fun n hn => ?tracked
      outside := fun e he ho => ?outside
      classified := fun e he => ?classified
      unclassified := fun n hn hk => ?unclassified
      unwritten := fun n hn m hm => ?unwritten }
  case own =>
    obtain ⟨_, _, _, hq, _⟩ := h.mem_edges he
    rwa [h.qualified]
  case tracked =>
    rw [show b.symbol.table.keys = _ from h.placed, ← Roster.mem_def, placedNames,
      Roster.mem_ofList] at hn
    obtain ⟨t, ht, rfl⟩ := List.mem_map.mp hn
    rw [h.qualified]
    exact name_of_mem_tracked (List.mem_of_mem_filter ht)
  case outside =>
    obtain ⟨r, hr, ht, -⟩ := h.mem_edges he
    -- Outside of the build a name stands for itself.
    have hself : r.name = e.target := by
      rcases meaning_of_target? ht with ⟨-, hs⟩ | ⟨_, -, hs⟩ | ⟨hself, -⟩
      · rcases ho with ho | ho <;> rw [ho] at hs <;> cases hs
      · rcases ho with ho | ho <;> rw [ho] at hs <;> cases hs
      · exact hself
    rw [← hself]
    exact (name_of_mem_met hr).2.1
  case classified =>
    obtain ⟨r, hr, ht, -⟩ := h.mem_edges he
    refine ⟨r.name, ?_⟩
    rw [h.get?_loaded, if_pos (List.mem_map_of_mem hr), target?, ht, Option.map_some]
  case unclassified =>
    obtain ⟨v, hv⟩ := Table.mem_keys.mp hk
    rw [h.get?_loaded] at hv
    split_ifs at hv with hmet
    obtain ⟨r, hr, rfl⟩ := List.mem_map.mp hmet
    exact (name_of_mem_met hr).2.2 hn
  case unwritten =>
    have hw : cx.isWritten s rs n = false := by
      rw [← Bool.not_eq_true]
      intro hw
      obtain ⟨r, hr, rfl⟩ := List.mem_map.mp (mem_met_of_isWritten hw)
      exact (name_of_mem_met hr).2.2 hn
    rw [show b.symbol.mentions? n = _ from h.mentions n, mentions?, hw,
      if_neg Bool.false_ne_true] at hm
    split_ifs at hm
    cases hm
    rfl

/-! ## Late imports -/

/-- **A late import**, of a name that the symbol has waited for. -/
theorem Symbol.Excludes.learn {x : Symbol} {builtins : Builtins} {ignored : List String}
    (h : x.Excludes builtins ignored) {l : LateImport} (hw : x.loaded.get? l.name = some none) :
    (x.learn l).Excludes builtins ignored := by
  have hname : l.name ∈ x.loaded.keys := Table.mem_keys.mpr ⟨_, hw⟩
  refine
    { own := fun e he => ?own
      tracked := fun n hn => ?tracked
      outside := fun e he ho => ?outside
      classified := fun e he => ?classified
      unclassified := fun n hn hk => ?unclassified
      unwritten := fun n hn m hm => ?unwritten }
  case own =>
    rw [qualified_learn]
    rcases mem_edges_learn_iff.mp he with he | ⟨rfl, ht, -⟩
    · exact h.own e he
    · exact ht
  case tracked =>
    rw [table_learn, Table.keys_modify] at hn
    rw [qualified_learn]
    exact h.tracked n hn
  case outside =>
    rcases mem_edges_learn_iff.mp he with he | ⟨rfl, -⟩
    · exact h.outside e he ho
    · rcases ho with ho | ho <;> cases ho
  case classified =>
    rcases mem_edges_learn_iff.mp he with he | ⟨rfl, -⟩
    · -- The name that has been found had no target before.
      obtain ⟨n, hn⟩ := h.classified e he
      refine ⟨n, ?_⟩
      rw [loaded_learn, Table.get?_insert, if_neg, hn]
      rintro rfl
      rw [hw] at hn
      cases hn
    · refine ⟨l.name, ?_⟩
      rw [loaded_learn, Table.get?_insert, if_pos rfl]
      rfl
  case unclassified =>
    obtain ⟨v, hv⟩ := Table.mem_keys.mp hk
    rw [loaded_learn, Table.get?_insert] at hv
    split_ifs at hv with hne
    · exact h.unclassified n hn (hne ▸ hname)
    · exact h.unclassified n hn (Table.mem_keys.mpr ⟨v, hv⟩)
  case unwritten =>
    rw [Symbol.mentions?, table_learn, Table.get?_modify, if_neg] at hm
    · exact h.unwritten n hn m hm
    · rintro rfl
      exact h.unclassified _ hn hname

theorem Past.Explains.excludes {past : Past} {scope : Scope} {id : SymbolId} {x : Symbol}
    (h : past.Explains scope id x) :
    x.Excludes past.context.scope.builtins past.context.options.ignored := by
  obtain ⟨⟨s, rs⟩, hd, hb⟩ := h.declared
  have hi : s.ignored = past.context.options.ignored := (Context.unit_of_mem_declarations hd).2
  have hstart : past.bound.symbol.Excludes past.context.scope.builtins _ := hb.excludes
  rw [h.symbol, ← hi]
  have hall : ∀ ls : List LateImport, (∀ l ∈ ls, l.deferral ∈ past.bound.deferred) →
      (ls.map LateImport.name).Nodup →
      (past.bound.symbol.learnAll ls).Excludes past.context.scope.builtins s.ignored := by
    intro ls
    induction ls using List.reverseRecOn with
    | nil => exact fun _ _ => hstart
    | append_singleton ls l ih =>
      intro hl hn
      rw [List.map_append, List.nodup_append] at hn
      rw [List.forall_mem_append] at hl
      rw [Symbol.learnAll_concat]
      refine (ih hl.1 hn.1).learn ?_
      -- Nothing has been found under that name before.
      have hnew : l.name ∉ ls.map LateImport.name := fun hm =>
        hn.2.2 _ hm _ (List.mem_singleton_self _) rfl
      obtain ⟨hmet, ht⟩ := hb.deferred_met (hl.2 l (List.mem_singleton_self l))
      rw [Symbol.get?_loaded_learnAll, LateImport.answer?_eq_none hnew, Option.map_none,
        Option.none_or, hb.get?_loaded, LateImport.name, if_pos hmet, ht]
  exact hall past.late h.deferral h.nodup

namespace History

/-- **What no symbol refers to**, after every run: itself, built-in names and ignored ones. No
reference waits for an ignored name either. -/
theorem excludes_run (options : Options) {actions : List Action} (hf : ∀ a ∈ actions, a.IsFresh)
    {id : SymbolId} {x : Symbol} (hx : (run options actions).project.symbol? id = some x) :
    x.Excludes (run options actions).project.builtins options.ignored ∧
      ∀ n ∈ options.ignored, ∀ uri w, (run options actions).project.waiting? uri n = some w →
        ∀ r ∈ w.queue, r.symbol ≠ id := by
  have hl := lists_run options actions
  obtain ⟨uri, u, past, hu, hid, ⟨tree, scope, -, hcx⟩, hp⟩ :=
    (recalls_run options hf).past hl hx
  have hb : past.context.scope.builtins = (run options actions).project.builtins := by
    rw [Scope.builtins_of_drained hcx.scope, Project.declareAll_eq, (settings_run _ _).2]
  have hexc := hp.excludes
  rw [hb, hcx.options] at hexc
  refine ⟨hexc, fun n hn k w hw r hr hrid => ?_⟩
  -- A reference that waits belongs to a symbol of its unit, which has deferred it.
  obtain ⟨v, hv, hw⟩ := Option.bind_eq_some_iff.mp hw
  have hown := ((recalls_run options hf) k v hv).owns n r (Scope.queueOf_of_get? hw ▸ hr)
  rw [hrid] at hown
  obtain rfl := Project.eq_of_mem_symbols hl hu hv hid hown
  rw [hu, Option.some.injEq] at hv
  subst hv
  have hmem : r ∈ w.queue.filter (·.symbol = id) := List.mem_filter.mpr ⟨hr, by simpa using hrid⟩
  rw [(hp.waits n w hw).2.2] at hmem
  obtain ⟨d, hd, -⟩ := List.mem_map.mp hmem
  obtain ⟨hd, hdn⟩ := List.mem_filter.mp hd
  obtain ⟨⟨s, rs⟩, hdecl, hbound⟩ := hp.declared
  obtain ⟨hmet, -⟩ := hbound.deferred_met hd
  obtain ⟨t, ht, htn⟩ := List.mem_map.mp hmet
  have hi : s.ignored = options.ignored := by
    rw [(Context.unit_of_mem_declarations hdecl).2, hcx.options]
  have hne := (Context.name_of_mem_met ht).2.2
  rw [htn, of_decide_eq_true hdn, hi] at hne
  exact hne hn

/-- One of the types of `aliasTree` waits for its unit, and is found. -/
def ignoredActions : List Action :=
  [.bind aliasTree (aliasScope.addWaiting "N" "v.avt"), .supply "u.avt" "N" "R"]

theorem excludes_run_ignoredActions : (∀ a ∈ ignoredActions, a.IsFresh) ∧
    ∃ x, (run { ignored := ["N"] } ignoredActions).project.symbol? ⟨0, 0⟩ = some x ∧
      x.Excludes (run { ignored := ["N"] } ignoredActions).project.builtins ["N"] := by
  have hf : ∀ a ∈ ignoredActions, a.IsFresh := by
    intro a ha
    simp only [ignoredActions, List.mem_cons, List.not_mem_nil, or_false] at ha
    rcases ha with rfl | rfl
    · intro n
      rw [Scope.queueOf, Scope.addWaiting, Table.get?_insert]
      split_ifs <;> rfl
    · trivial
  have hx : ((run { ignored := ["N"] } ignoredActions).project.symbol? ⟨0, 0⟩).isSome = true := by
    rw [run_eq rfl]
    decide +kernel
  obtain ⟨x, hx⟩ := Option.isSome_iff_exists.mp hx
  exact ⟨hf, x, hx, (excludes_run { ignored := ["N"] } hf hx).1⟩

end History

end Bindery
