import Mathlib.Data.List.Perm.Subperm
import Bindery.Proofs.Graph.Imports

/-!
# Affected units

Every unit that refers to another one, directly or through others, is affected when that one
changes, and no other is.

* `Roster.prefix_insertAll`: members keep their places.
* `Surveyed`: the successors of every vertex that has been met are met or still to come.
* **`closed_visitAll`**, **`mem_closure_iff`**: the work list does not end before all that can be
  reached has been met.
* **`ImportGraph.mem_affected_iff`**: the affected units are those from which there is a path.
-/

namespace Bindery

/-! ## The work list -/

theorem Roster.prefix_insertAll {α : Type} [DecidableEq α] (r : Roster α) (xs : List α) :
    r.toList <+: (r.insertAll xs).toList := by
  induction xs generalizing r with
  | nil => exact List.prefix_rfl
  | cons x xs ih =>
    have hx : r.toList <+: (r.insert x).toList := by
      rw [Roster.toList_insert]
      split_ifs
      · exact List.prefix_rfl
      · exact List.prefix_append _ _
    exact hx.trans (ih _)

section Visit

variable {α : Type} {next : α → List α} {vertices : List α}

theorem Reaches.mem_of_closed {a x : α} {s : List α} (h : Reaches next a x) (ha : a ∈ s)
    (hs : ∀ v ∈ s, ∀ w ∈ next v, w ∈ s) : x ∈ s := by
  induction h with
  | refl => exact ha
  | step _ hc ih => exact hs _ ih _ hc

/-- **Where a visit stands**: what has been met, of all vertices, and what is still on the list. -/
structure Surveyed (next : α → List α) (vertices : List α) (seen : Roster α) (todo : List α) :
    Prop where
  known : ∀ v ∈ seen, v ∈ vertices
  met : ∀ v ∈ todo, v ∈ seen
  /-- A vertex leaves the list together with the arrival of its successors. -/
  done : ∀ v ∈ seen, v ∈ todo ∨ ∀ w ∈ next v, w ∈ seen

theorem Surveyed.size_le {seen : Roster α} {todo : List α}
    (h : Surveyed next vertices seen todo) : seen.size ≤ vertices.length :=
  (seen.nodup.subperm fun v hv => h.known v hv).length_le

variable [DecidableEq α]

theorem Surveyed.visit (hv : ∀ v ∈ vertices, ∀ w ∈ next v, w ∈ vertices) {seen : Roster α}
    {v : α} {todo : List α} (h : Surveyed next vertices seen (v :: todo)) :
    Surveyed next vertices (seen.insertAll (next v))
      ((seen.insertAll (next v)).toList.drop seen.size ++ todo) where
  known w hw := by
    rcases Roster.mem_insertAll.mp hw with hw | hw
    · exact h.known w hw
    · exact hv v (h.known v (h.met v List.mem_cons_self)) w hw
  met w hw := by
    rcases List.mem_append.mp hw with hw | hw
    · exact List.mem_of_mem_drop hw
    · exact Roster.mem_insertAll.mpr (.inl (h.met w (List.mem_cons_of_mem _ hw)))
  done w hw := by
    obtain ⟨new, hnew⟩ := seen.prefix_insertAll (next v)
    have hdrop : (seen.insertAll (next v)).toList.drop seen.size = new := by
      rw [← hnew, Roster.size, List.drop_left]
    rw [hdrop]
    have hw' : w ∈ seen.toList ++ new := hnew ▸ hw
    rcases List.mem_append.mp hw' with hold | hw'
    · rcases h.done w hold with hm | hdone
      · rcases List.mem_cons.mp hm with rfl | hm
        · exact .inr fun k hk => Roster.mem_insertAll.mpr (.inr hk)
        · exact .inl (List.mem_append_right _ hm)
      · exact .inr fun k hk => Roster.mem_insertAll.mpr (.inl (hdone k hk))
    · exact .inl (List.mem_append_left _ hw')

/-- **A visit ends when nothing is left on its list**: every round takes one vertex off it, and no
vertex enters it twice. -/
theorem closed_visitAll (hv : ∀ v ∈ vertices, ∀ w ∈ next v, w ∈ vertices) (rounds : Nat)
    {seen : Roster α} {todo : List α} (h : Surveyed next vertices seen todo)
    (hr : todo.length + vertices.length ≤ rounds + seen.size) :
    (∀ v ∈ seen, v ∈ visitAll next rounds seen todo) ∧
      ∀ v ∈ visitAll next rounds seen todo, ∀ w ∈ next v, w ∈ visitAll next rounds seen todo := by
  have hstop : ∀ {seen : Roster α}, Surveyed next vertices seen [] →
      (∀ v ∈ seen, v ∈ seen) ∧ ∀ v ∈ seen, ∀ w ∈ next v, w ∈ seen := fun h =>
    ⟨fun _ hm => hm, fun v hm => (h.done v hm).resolve_left List.not_mem_nil⟩
  fun_induction visitAll next rounds seen todo with
  | case1 seen todo =>
    have hle := h.size_le
    obtain rfl : todo = [] := List.length_eq_zero_iff.mp (by omega)
    exact hstop h
  | case2 seen => exact hstop h
  | case3 rounds seen v todo seen' ih =>
    have hvisit := h.visit hv
    have hsize : (seen'.toList.drop seen.size).length + seen.size = seen'.size := by
      have hle := (seen.prefix_insertAll (next v)).length_le
      rw [List.length_drop, Roster.size, Roster.size]
      exact Nat.sub_add_cancel hle
    obtain ⟨hold, hclosed⟩ := ih hvisit (by
      rw [List.length_append]
      rw [List.length_cons] at hr
      omega)
    exact ⟨fun w hw => hold w (Roster.mem_insertAll.mpr (.inl hw)), hclosed⟩

/-- **The closure holds all that can be reached**, if there are no more vertices than were
counted. -/
theorem mem_closure_iff {count : Nat} {a x : α} (ha : a ∈ vertices)
    (hv : ∀ v ∈ vertices, ∀ w ∈ next v, w ∈ vertices) (hc : vertices.length ≤ count + 1) :
    x ∈ closure next count a ↔ Reaches next a x := by
  refine ⟨reaches_of_mem_closure, fun h => ?_⟩
  have hone : (Roster.empty.insert a).toList = [a] := rfl
  have hstart : Surveyed next vertices (Roster.empty.insert a) [a] := by
    refine ⟨fun v hm => ?_, fun v hm => hm, fun v hm => .inl hm⟩
    rw [Roster.mem_def, hone, List.mem_singleton] at hm
    exact hm ▸ ha
  obtain ⟨hold, hclosed⟩ := closed_visitAll hv (count + 1) hstart (by
    rw [Roster.size, hone, List.length_singleton]
    omega)
  exact h.mem_of_closed (hold a (by rw [Roster.mem_def, hone]; exact List.mem_singleton_self a))
    hclosed

end Visit

/-! ## Units -/

namespace ImportGraph

variable {g : ImportGraph} {u v : String}

theorem mem_keys_of_mem_neighbours {t : Table (Roster String)} (h : v ∈ neighbours t u) :
    u ∈ t.keys := by
  cases hr : t.get? u with
  | none =>
    rw [neighbours, hr] at h
    exact absurd h (Roster.not_mem_empty v)
  | some r => exact Table.mem_keys.mpr ⟨r, hr⟩

theorem Sound.mem_units (h : g.Sound) (hv : v ∈ neighbours g.importers u) : v ∈ g.units :=
  Roster.mem_ofList.mpr
    (List.mem_append_left _ (mem_keys_of_mem_neighbours ((h.mirror v u).mpr hv)))

/-- **The affected units** are the others that refer to a unit, directly or through others. -/
theorem Sound.mem_affected_iff (h : g.Sound) : v ∈ g.affected u ↔
    Reaches (fun w => (neighbours g.importers w).toList) u v ∧ v ≠ u := by
  have hclosed : ∀ w ∈ u :: g.units.toList, ∀ k ∈ (neighbours g.importers w).toList,
      k ∈ u :: g.units.toList := fun w _ k hk => List.mem_cons_of_mem _ (h.mem_units hk)
  rw [affected, Text.mem_sortNames]
  refine Roster.mem_erase.trans (and_congr_left' ?_)
  refine mem_closure_iff List.mem_cons_self hclosed ?_
  rw [List.length_cons, Roster.size]
  omega

theorem mem_neighbours_addAll {vs : List String} :
    v ∈ neighbours (g.addAll u vs).imports u ↔
      v ∈ neighbours g.imports u ∨ v ∈ vs ∧ v ≠ u := by
  induction vs generalizing g with
  | nil => simp [addAll]
  | cons w vs ih =>
    refine ih.trans ?_
    have hadd : v ∈ neighbours (g.addImport u w).imports u ↔
        v ∈ neighbours g.imports u ∨ v = w ∧ v ≠ u := by
      unfold addImport
      split_ifs with huw
      · rw [← huw]
        tauto
      · rw [mem_neighbours_link]
        constructor
        · rintro (hm | ⟨-, rfl⟩)
          · exact .inl hm
          · exact .inr ⟨rfl, Ne.symm huw⟩
        · rintro (hm | ⟨rfl, -⟩)
          · exact .inl hm
          · exact .inr ⟨rfl, rfl⟩
    rw [hadd, List.mem_cons]
    tauto

end ImportGraph

/-! ## Graphs with the same imports -/

theorem Text.pairwise_sortNames (ns : List String) :
    (sortNames ns).Pairwise fun a b => notAfter a.toList b.toList = true := by
  apply List.pairwise_mergeSort
  · exact fun _ _ _ => notAfter_trans
  · exact fun _ _ => notAfter_total _ _

theorem Text.sortNames_congr {ms ns : List String} (hm : ms.Nodup) (hn : ns.Nodup)
    (h : ∀ n, n ∈ ms ↔ n ∈ ns) : sortNames ms = sortNames ns := by
  have hperm : (sortNames ms).Perm (sortNames ns) :=
    (List.mergeSort_perm _ _).trans
      (((List.perm_ext_iff_of_nodup hm hn).mpr h).trans (List.mergeSort_perm _ _).symm)
  refine hperm.eq_of_pairwise (fun a b _ _ hab hba => ?_) (pairwise_sortNames ms)
    (pairwise_sortNames ns)
  exact String.toList_injective (notAfter_antisymm hab hba)

theorem Reaches.head {α : Type} {next : α → List α} {a b x : α} (hb : b ∈ next a)
    (h : Reaches next b x) : Reaches next a x := by
  induction h with
  | refl => exact .step .refl hb
  | step _ hm ih => exact ih.step hm

theorem Reaches.imp {α : Type} {next next' : α → List α} {a x : α}
    (hn : ∀ v w, w ∈ next v → w ∈ next' v) (h : Reaches next a x) : Reaches next' a x := by
  induction h with
  | refl => exact .refl
  | step _ hm ih => exact ih.step (hn _ _ hm)

namespace ImportGraph

theorem affected_ext {g g' : ImportGraph} {u : String}
    (h : ∀ v, v ∈ g.affected u ↔ v ∈ g'.affected u) : g.affected u = g'.affected u := by
  apply Text.sortNames_congr (Roster.nodup _) (Roster.nodup _)
  intro v
  exact Text.mem_sortNames.symm.trans ((h v).trans Text.mem_sortNames)

section Congr

variable {g g' : ImportGraph}
  (h : ∀ u v, v ∈ neighbours g.imports u ↔ v ∈ neighbours g'.imports u)

include h

theorem importsOf_congr (u : String) : g.importsOf u = g'.importsOf u :=
  Text.sortNames_congr (Roster.nodup _) (Roster.nodup _) fun n => h u n

/-- **Graphs with the same imports** have the same affected units. -/
theorem Sound.affected_congr (hg : g.Sound) (hg' : g'.Sound) (u : String) :
    g.affected u = g'.affected u := by
  have hnext : ∀ v w, w ∈ (neighbours g.importers v).toList ↔
      w ∈ (neighbours g'.importers v).toList := fun v w =>
    (hg.mirror w v).symm.trans ((h w v).trans (hg'.mirror w v))
  apply affected_ext
  intro v
  rw [hg.mem_affected_iff, hg'.mem_affected_iff]
  exact and_congr_left' ⟨Reaches.imp fun v w => (hnext v w).mp,
    Reaches.imp fun v w => (hnext v w).mpr⟩

end Congr

end ImportGraph

end Bindery
