import Bindery.Proofs.Binding.Declared
import Bindery.Proofs.Symbol.Ahead

/-!
# A declaration with an import that waits, and with the import known

The same declaration is bound twice: where an import waits, and where it is known what it means.

* `Context.Supplied`: the two contexts.
* `Bound.Pair`: the two symbols, and what waits in each.
* **`Context.Supplied.pair`**: the same references lead to such a pair.
-/

namespace Bindery

/-- Symbols bound from the same declaration: in the first `name` may wait for `e`, and the second
waits for the same as the first apart from that. -/
structure Bound.Pair (name target source : String) (written : Bool) (b b' : Bound) : Prop where
  deferred : b'.deferred = b.deferred.filter (·.name ≠ name)
  symbols : (Symbol.Even name b.symbol b'.symbol ∧ b.deferred.filter (·.name = name) = []) ∨
    ∃ strong placed, b.deferred.filter (·.name = name) = [⟨name, strong, placed⟩] ∧
      Symbol.Ahead name ⟨target, .otherUnit source, strong⟩ written b.symbol b'.symbol

namespace Context

open Draft

/-- The import `name` waits in the first context, unless something else hides it, and is known to
mean `target` in the second. -/
structure Supplied (name target source : String) (cx cx' : Context) : Prop where
  isBuiltin : ∀ n, cx.scope.isBuiltin n = cx'.scope.isBuiltin n
  options : cx.options = cx'.options
  others : ∀ n, n ≠ name → cx.scope.meaning n = cx'.scope.meaning n
  name : (cx.scope.meaning name = cx'.scope.meaning name ∧
      ∀ source, cx.scope.meaning name ≠ .waiting source) ∨
    (cx.scope.meaning name = .waiting source ∧ cx'.scope.meaning name = .imported ⟨target, source⟩)

variable {cx cx' : Context} {name target source : String} {s : Symbol} {rs : List Reference}

/-! ## What does not depend on meanings -/

section Same

variable (h : ∀ n, cx.scope.isBuiltin n = cx'.scope.isBuiltin n)

include h

theorem tracked_congr : cx.tracked s rs = cx'.tracked s rs := by
  rw [tracked, tracked]
  congr 1
  funext r
  rw [Reference.tracked?, h, Reference.tracked?]

theorem met_congr : cx.met s rs = cx'.met s rs := by
  rw [met, opened, tracked_congr h, met, opened]

theorem placedNames_congr : cx.placedNames s rs = cx'.placedNames s rs := by
  rw [placedNames, tracked_congr h, placedNames]

theorem placesOf_congr : cx.placesOf s rs = cx'.placesOf s rs := by
  funext n
  rw [placesOf, tracked_congr h, placesOf]

theorem isWritten_congr : cx.isWritten s rs = cx'.isWritten s rs := by
  funext n
  rw [isWritten, tracked_congr h, isWritten]

end Same

theorem mem_met_of_isWritten {n : String} (h : cx.isWritten s rs n = true) :
    n ∈ (cx.met s rs).map Reference.name := by
  rw [isWritten, List.any_eq_true] at h
  obtain ⟨r, hr, hn⟩ := h
  rw [Bool.and_eq_true, decide_eq_true_eq] at hn
  rw [met, Reference.mem_map_name_firsts, ← hn.1]
  exact List.mem_map_of_mem (List.mem_filter.mpr ⟨(List.dropWhile_subset _) hr, hn.2⟩)

theorem nodup_map_name_met (cx : Context) (s : Symbol) (rs : List Reference) :
    ((cx.met s rs).map Reference.name).Nodup := Reference.nodup_map_name_firsts _

/-! ## What a single name turns into -/

namespace Supplied

variable (h : cx.Supplied name target source cx')

include h

theorem target?_of_ne {n : String} (hn : n ≠ name) : cx.target? n = cx'.target? n := by
  rw [target?, h.others n hn, target?]

theorem replacement?_of_ne {n : String} (hn : n ≠ name) :
    cx.replacement? n = cx'.replacement? n := by
  rw [replacement?, h.others n hn, h.options, replacement?]

theorem edge?_of_ne {r : Reference} (hn : r.name ≠ name) : cx.edge? s r = cx'.edge? s r := by
  rw [edge?, h.others _ hn, edge?]

theorem deferral?_of_ne {r : Reference} (hn : r.name ≠ name) :
    cx.deferral? r = cx'.deferral? r := by
  rw [deferral?, h.target?_of_ne hn, deferral?]

/-- What waits in the second context waits in the first, apart from the import that is known. -/
theorem deferral?_eq (r : Reference) :
    cx'.deferral? r = (cx.deferral? r).filter (·.name ≠ name) := by
  have hname : ∀ {cx : Context} {d}, cx.deferral? r = some d → d.name = r.name :=
    fun {cx} _ hd => (cx.name_deferral r hd).1
  by_cases hn : r.name = name
  · have hnone : cx'.deferral? r = none := by
      have ht : (cx'.target? r.name).isSome = true := by
        rw [hn, Option.isSome_iff_ne_none, Ne, target?_eq_none_iff]
        rintro ⟨src, hs⟩
        rcases h.name with ⟨he, hw⟩ | ⟨-, hi⟩
        · exact hw src (he.trans hs)
        · rw [hi] at hs
          cases hs
      rw [deferral?, if_pos ht]
    rw [hnone]
    cases hd : cx.deferral? r with
    | none => rfl
    | some d => rw [Option.filter_some, if_neg (by simp [hname hd, hn])]
  · rw [← h.deferral?_of_ne hn]
    cases hd : cx.deferral? r with
    | none => rfl
    | some d => rw [Option.filter_some, if_pos (by simp [hname hd, hn])]

variable {b b' : Bound} (hb : cx.IsBoundAs (s, rs) b) (hb' : cx'.IsBoundAs (s, rs) b')

include hb hb'

theorem deferred_eq : b'.deferred = b.deferred.filter (·.name ≠ name) := by
  rw [show b.deferred = _ from hb.deferred, show b'.deferred = _ from hb'.deferred,
    List.filter_filterMap, met_congr h.isBuiltin]
  exact List.filterMap_congr fun r _ => h.deferral?_eq r

/-- Nothing that is looked up waits for the name. -/
theorem even (hm : ∀ r ∈ cx.met s rs, cx.scope.meaning r.name = cx'.scope.meaning r.name)
    (hw : name ∈ (cx.met s rs).map Reference.name → ∃ t, cx.target? name = some t) :
    Symbol.Even name b.symbol b'.symbol ∧ b.deferred.filter (·.name = name) = [] := by
  have hmet : cx.met s rs = cx'.met s rs := met_congr h.isBuiltin
  have hloaded : b.symbol.loaded.get? name = _ := Table.get?_of_entries_eq_map hb.loaded name
  refine ⟨⟨hb.bare.trans hb'.bare.symm, Table.ext_get? ?_ fun n => ?_, ?_, fun hn => ?_⟩, ?_⟩
  · rw [hb.placed, hb'.placed, placedNames_congr h.isBuiltin]
  · have hr : cx.isWritten s rs n = true → cx.replacement? n = cx'.replacement? n := by
      intro hwr
      obtain ⟨r, hr, rfl⟩ := List.mem_map.mp (mem_met_of_isWritten hwr)
      rw [replacement?, hm r hr, h.options, replacement?]
    refine (hb.mentions n).trans (Eq.trans ?_ (hb'.mentions n).symm)
    rw [mentions?, mentions?, placesOf_congr h.isBuiltin, isWritten_congr h.isBuiltin]
    rw [isWritten_congr h.isBuiltin] at hr
    cases hwr : cx'.isWritten s rs n with
    | false => rfl
    | true => rw [hr hwr]
  · refine hb.edges.trans (Eq.trans ?_ hb'.edges.symm)
    dsimp only
    rw [← hmet]
    refine List.filterMap_congr fun r hr => ?_
    rw [edge?, hm r hr, edge?]
  · rw [hn] at hloaded
    split_ifs at hloaded with hmem
    obtain ⟨t, ht⟩ := hw hmem
    rw [ht] at hloaded
    cases hloaded
  · rw [List.filter_eq_nil_iff]
    intro d hd hn
    rw [show b.deferred = _ from hb.deferred] at hd
    obtain ⟨r, hr, hrd⟩ := List.mem_filterMap.mp hd
    rw [deferral?] at hrd
    split_ifs at hrd with ht
    cases hrd
    obtain rfl : r.name = name := of_decide_eq_true hn
    obtain ⟨t, hs⟩ := hw (List.mem_map_of_mem hr)
    rw [hs] at ht
    exact ht rfl

section Ahead

variable (hD : cx.scope.meaning name = .waiting source)
  (hI : cx'.scope.meaning name = .imported ⟨target, source⟩)

include hD hI

omit h hI hb' in
theorem filter_deferred {l₁ l₂ : List Reference} {r : Reference}
    (hmet : cx.met s rs = l₁ ++ r :: l₂) (hr : r.name = name) (hne : ∀ t ∈ l₁ ++ l₂, t.name ≠ name) :
    b.deferred.filter (·.name = name) = [⟨name, r.strong, r.location?.isSome⟩] := by
  have hd : cx.deferral? r = some ⟨name, r.strong, r.location?.isSome⟩ := by
    rw [deferral?, hr, (cx.target?_eq_none_iff name).mpr ⟨source, hD⟩]
    rfl
  have hnil : ∀ {l : List Reference}, (∀ t ∈ l, t.name ≠ name) →
      (l.filterMap cx.deferral?).filter (·.name = name) = [] := by
    intro l hl
    rw [List.filter_filterMap, List.filterMap_eq_nil_iff]
    intro t ht
    rw [deferral?]
    split_ifs
    · rfl
    · rw [Option.filter_some, if_neg (by simpa using hl t ht)]
  rw [show b.deferred = _ from hb.deferred, hmet, List.filterMap_append, List.filter_append,
    List.filterMap_cons_some hd, List.filter_cons_of_pos (by simp),
    hnil fun t ht => hne t (List.mem_append_left _ ht),
    hnil fun t ht => hne t (List.mem_append_right _ ht), List.nil_append]

theorem table_ahead : b'.symbol.table = b.symbol.table.modify name fun m =>
    { m with replacement := if cx.isWritten s rs name then some target else none } := by
  refine Table.ext_get? ?_ fun n => ?_
  · rw [Table.keys_modify, hb.placed, hb'.placed, placedNames_congr h.isBuiltin]
  · rw [Table.get?_modify, show b'.symbol.table.get? n = _ from hb'.mentions n,
      show b.symbol.table.get? n = _ from hb.mentions n, mentions?, mentions?,
      placesOf_congr h.isBuiltin, isWritten_congr h.isBuiltin]
    by_cases hn : n = name
    · subst hn
      have hrep : cx'.replacement? n = some target := by
        rw [replacement?, hI]
        rfl
      rw [if_pos rfl, hrep]
      split_ifs <;> rfl
    · rw [if_neg hn, h.replacement?_of_ne hn]

theorem edges_ahead {l₁ l₂ : List Reference} {r : Reference} (hmet : cx.met s rs = l₁ ++ r :: l₂)
    (hr : r.name = name) (hne : ∀ t ∈ l₁ ++ l₂, t.name ≠ name) :
    if target = b.symbol.qualified then b.symbol.edges = b'.symbol.edges
    else b'.symbol.edges.Perm (⟨target, .otherUnit source, r.strong⟩ :: b.symbol.edges) := by
  have hq : b.symbol.qualified = s.qualified := Symbol.qualified_of_bare hb.bare
  have he : b.symbol.edges = (l₁ ++ l₂).filterMap (cx'.edge? s) := by
    have hnone : cx.edge? s r = none := by
      rw [edge?, hr, hD]
      rfl
    rw [show b.symbol.edges = _ from hb.edges, hmet, List.filterMap_append,
      List.filterMap_cons_none hnone, ← List.filterMap_append]
    exact List.filterMap_congr fun t ht => h.edge?_of_ne (hne t ht)
  have he' : b'.symbol.edges = (l₁ ++ r :: l₂).filterMap (cx'.edge? s) := by
    rw [← hmet, met_congr h.isBuiltin]
    exact hb'.edges
  have hedge : cx'.edge? s r = if target = s.qualified then none
      else some ⟨target, .otherUnit source, r.strong⟩ := by
    rw [edge?, hr, hI]
    rfl
  rw [hq, he, he', List.filterMap_append, List.filterMap_append, List.filterMap_cons, hedge]
  split_ifs
  · rfl
  · exact List.perm_middle

/-- The name is looked up, and its import waits. -/
theorem ahead (hm : name ∈ (cx.met s rs).map Reference.name) :
    ∃ strong placed, b.deferred.filter (·.name = name) = [⟨name, strong, placed⟩] ∧
      Symbol.Ahead name ⟨target, .otherUnit source, strong⟩ (cx.isWritten s rs name) b.symbol
        b'.symbol := by
  obtain ⟨r, hr, hrn⟩ := List.mem_map.mp hm
  obtain ⟨l₁, l₂, hmet⟩ := List.append_of_mem hr
  have hne : ∀ t ∈ l₁ ++ l₂, t.name ≠ name := by
    have hnd := nodup_map_name_met cx s rs
    rw [hmet, List.map_append, List.map_cons, List.nodup_middle, ← List.map_append,
      List.nodup_cons, hrn] at hnd
    intro t ht hn
    exact hnd.1 (hn ▸ List.mem_map_of_mem ht)
  have hloaded : b.symbol.loaded.get? name = _ := Table.get?_of_entries_eq_map hb.loaded name
  rw [if_pos hm, (cx.target?_eq_none_iff name).mpr ⟨source, hD⟩] at hloaded
  have hedges := h.edges_ahead hb hb' hD hI hmet hrn hne
  refine ⟨r.strong, r.location?.isSome, filter_deferred hb hD hmet hrn hne,
    hb.bare.trans hb'.bare.symm, hloaded, h.table_ahead hb hb' hD hI, ?_⟩
  split_ifs at hedges ⊢
  · exact hedges
  · exact .inl hedges

end Ahead

/-- **The same references lead to such a pair.** -/
theorem pair : Bound.Pair name target source (cx.isWritten s rs name) b b' := by
  refine ⟨h.deferred_eq hb hb', ?_⟩
  by_cases hm : name ∈ (cx.met s rs).map Reference.name
  · -- The name is looked up: a local declaration of that name hides the import from both sides.
    rcases h.name with ⟨he, hw⟩ | ⟨hD, hI⟩
    · refine .inl (h.even hb hb' (fun r _ => ?_) fun _ => ?_)
      · by_cases hr : r.name = name
        · rw [hr, he]
        · exact h.others _ hr
      · rw [← Option.ne_none_iff_exists', Ne, target?_eq_none_iff]
        rintro ⟨src, hs⟩
        exact hw src hs
    · exact .inr (h.ahead hb hb' hD hI hm)
  · refine .inl (h.even hb hb' (fun r hr => h.others _ ?_) fun hc => absurd hc hm)
    rintro rfl
    exact hm (List.mem_map_of_mem hr)

end Supplied

end Context

end Bindery
