import Bindery.Proofs.Binding.Supplied

/-!
# What a bound symbol refers to

Every dependency of a symbol and everything it waits for comes from the first open reference to some
name.

* `Context.name_of_mem_tracked`, `Context.name_of_mem_met`: the names that come up.
* `Context.meaning_of_target?`: what a target says about the meaning of a name.
* `Context.IsBoundAs.mem_edges`, `Context.IsBoundAs.deferred_met`: where dependencies and deferrals
  come from.
-/

namespace Bindery.Context

variable {cx : Context} {s : Symbol} {rs : List Reference} {b : Bound}

theorem name_of_mem_tracked {t : Reference} (h : t ∈ cx.tracked s rs) :
    t.name ≠ s.qualified ∧ t.name ∉ cx.scope.builtins := by
  obtain ⟨r, -, hr⟩ := List.mem_filterMap.mp h
  rw [Reference.tracked?] at hr
  split_ifs at hr with hc
  cases hr
  rw [not_or, not_or] at hc
  refine ⟨hc.2.1, fun hm => hc.2.2 ?_⟩
  rw [Scope.isBuiltin, decide_eq_true_iff]
  exact hm

theorem name_of_mem_met {t : Reference} (h : t ∈ cx.met s rs) :
    t.name ≠ s.qualified ∧ t.name ∉ cx.scope.builtins ∧ t.name ∉ s.ignored := by
  obtain ⟨ht, ho⟩ := List.mem_filter.mp (Reference.firsts_subset _ h)
  have hn := name_of_mem_tracked ht
  exact ⟨hn.1, hn.2, (Reference.isOpen_iff.mp ho).2⟩

/-- Where a target comes from: a declaration of the unit, an import, or the name itself. -/
theorem meaning_of_target? {n t : String} {o : Origin}
    (h : (cx.scope.meaning n).target? n = some (t, o)) :
    cx.scope.meaning n = .sameUnit t ∧ o = .sameUnit ∨
      (∃ source, cx.scope.meaning n = .imported ⟨t, source⟩ ∧ o = .otherUnit source) ∨
      n = t ∧ (cx.scope.meaning n = .qualified ∧ o = .ambient ∨
        cx.scope.meaning n = .ambient ∧ o = .ambient ∨
          ∃ uri, cx.scope.meaning n = .package uri ∧ o = .package) := by
  cases hm : cx.scope.meaning n with
  | waiting _ =>
    rw [hm] at h
    cases h
  | _ =>
    rw [hm] at h
    cases h
    simp

section Bound

variable (h : cx.IsBoundAs (s, rs) b)

include h

theorem IsBoundAs.qualified : b.symbol.qualified = s.qualified := Symbol.qualified_of_bare h.bare

theorem IsBoundAs.get?_loaded (n : String) : b.symbol.loaded.get? n =
    if n ∈ (cx.met s rs).map Reference.name then some (cx.target? n) else none :=
  Table.get?_of_entries_eq_map h.loaded n

theorem IsBoundAs.deferred_met {d : Deferral} (hd : d ∈ b.deferred) :
    d.name ∈ (cx.met s rs).map Reference.name ∧ cx.target? d.name = none := by
  rw [show b.deferred = _ from h.deferred] at hd
  obtain ⟨r, hr, hrd⟩ := List.mem_filterMap.mp hd
  obtain ⟨hn, ht⟩ := cx.name_deferral r hrd
  rw [hn]
  exact ⟨List.mem_map_of_mem hr, ht⟩

theorem IsBoundAs.contains_of_placed {d : Deferral} (hd : d ∈ b.deferred)
    (hp : d.placed = true) : b.symbol.table.contains d.name = true := by
  rw [show b.deferred = _ from h.deferred] at hd
  obtain ⟨t, ht, htd⟩ := List.mem_filterMap.mp hd
  rw [deferral?] at htd
  split_ifs at htd
  cases htd
  have htrack : t ∈ cx.tracked s rs := List.mem_of_mem_filter (Reference.firsts_subset _ ht)
  rw [Table.contains, show b.symbol.table.get? t.name = _ from h.mentions t.name, mentions?,
    if_neg (placesOf_ne_nil htrack hp)]
  rfl

theorem IsBoundAs.mem_edges {e : Dependency} (he : e ∈ b.symbol.edges) :
    ∃ r ∈ cx.met s rs, (cx.scope.meaning r.name).target? r.name = some (e.target, e.origin) ∧
      e.target ≠ s.qualified ∧ e.strong = r.strong := by
  rw [show b.symbol.edges = _ from h.edges] at he
  obtain ⟨r, hr, hre⟩ := List.mem_filterMap.mp he
  obtain ⟨t, ht, hte⟩ := Option.bind_eq_some_iff.mp hre
  split_ifs at hte with hq
  cases hte
  exact ⟨r, hr, ht, hq, rfl⟩

theorem IsBoundAs.nodup_deferred : (b.deferred.map Deferral.name).Nodup := by
  have hsub : ∀ ts : List Reference,
      ((ts.filterMap cx.deferral?).map Deferral.name).Sublist (ts.map Reference.name) := by
    intro ts
    induction ts with
    | nil => exact List.Sublist.slnil
    | cons r ts ih =>
      cases hr : cx.deferral? r with
      | none =>
        rw [List.filterMap_cons_none hr]
        exact ih.cons _
      | some d =>
        rw [List.filterMap_cons_some hr, List.map_cons, (cx.name_deferral r hr).1]
        exact ih.cons_cons _
  rw [show b.deferred = _ from h.deferred]
  exact (nodup_map_name_met cx s rs).sublist (hsub _)

end Bound

/-! ## Strong references -/

theorem strong_strip (r : Reference) : r.strip.strong = r.strong := by
  unfold Reference.strip
  split
  split_ifs <;> rfl

theorem strong_of_mem_opened (hs : ∀ r ∈ rs, r.strong = true) {t : Reference}
    (ht : t ∈ cx.opened s rs) : t.strong = true := by
  obtain ⟨r, hr, hrt⟩ := List.mem_filterMap.mp (List.mem_of_mem_filter ht)
  rw [Reference.tracked?] at hrt
  split_ifs at hrt
  cases hrt
  rw [strong_strip, hs r hr]

/-- The clauses of a class refer to what is needed when it is defined. -/
theorem strong_heritageReferences {hidden : List String} {clauses : List Slot} :
    ∀ r ∈ cx.heritageReferences hidden clauses, r.strong = true := by
  intro r hr
  obtain ⟨x, -, hr⟩ := List.mem_flatMap.mp hr
  rw [shapeReferences] at hr
  split_ifs at hr
  · cases hr
  · obtain ⟨w, -, rfl⟩ := List.mem_map.mp hr
    rfl

/-- **References that come before all others and are strong** lead to strong dependencies. -/
theorem IsBoundAs.strong_mem_edges {rs' : List Reference} (h : cx.IsBoundAs (s, rs ++ rs') b)
    (hs : ∀ r ∈ rs, r.strong = true) {t : Reference} (ht : t ∈ cx.opened s rs) {target : String}
    {origin : Origin} (hm : (cx.scope.meaning t.name).target? t.name = some (target, origin))
    (hne : target ≠ s.qualified) : ⟨target, origin, true⟩ ∈ b.symbol.edges := by
  have hname : t.name ∈ (cx.met s rs).map Reference.name :=
    Reference.mem_map_name_firsts.mpr (List.mem_map_of_mem ht)
  obtain ⟨r, hr, hrt⟩ := List.mem_map.mp hname
  rw [show b.symbol.edges = _ from h.edges]
  refine List.mem_filterMap.mpr ⟨r, (cx.prefix_met s rs rs').subset hr, ?_⟩
  rw [edge?, hrt, hm, Option.bind_some, if_neg hne, strong_of_mem_opened hs (Reference.firsts_subset _ hr)]

end Bindery.Context
