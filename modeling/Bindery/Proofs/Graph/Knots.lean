import Mathlib.Data.List.Sort
import Mathlib.Data.Set.Subsingleton
import Mathlib.Logic.Relation
import Mathlib.Order.Defs.Unbundled
import Bindery.Proofs.Graph.Built
import Bindery.Proofs.Graph.Components

/-!
# Knots of declarations

Declarations that strongly depend on one another cannot be emitted in any order. A knot is a
greatest set of such declarations.

* `EmissionGraph.IsTangled`, `EmissionGraph.IsKnot`: such sets, and the greatest of them.
* `EmissionGraph.ListsKnots`: a list of all knots, each once and in order.
* **`EmissionGraph.listsKnots_cycleGroups`**: the groups that are found are such a list.
* **`EmissionGraph.knots_build`**: so they are for every graph that has been built.
-/

namespace Bindery.EmissionGraph

open Relation

variable {g : EmissionGraph} {K : Set String} {group l : List String} {groups : List (List String)}
  {a b : String}

/-- **Two declarations or more that strongly depend on one another**, directly or through others. -/
def IsTangled (g : EmissionGraph) (K : Set String) : Prop :=
  K.Nontrivial ∧ ∀ a ∈ K, ∀ b ∈ K, ReflTransGen g.DependsOn a b

/-- **Such declarations, and all that belong to them.** -/
def IsKnot (g : EmissionGraph) (K : Set String) : Prop := Maximal g.IsTangled K

/-- **A list of all knots of a graph**, in the order in which declarations were added. -/
structure ListsKnots (g : EmissionGraph) (groups : List (List String)) : Prop where
  knot : ∀ group ∈ groups, g.IsKnot {n | n ∈ group}
  once : ∀ K, g.IsKnot K → ∃! i : Fin groups.length, {n | n ∈ groups[i]} = K
  disjoint : groups.Pairwise List.Disjoint
  nodup : ∀ group ∈ groups, group.Nodup
  /-- Within a group, declarations are in order. -/
  sublist : ∀ group ∈ groups, group.Sublist g.names
  /-- So are the first ones of all groups. -/
  heads : (groups.filterMap List.head?).Sublist g.names

/-! ## Knots -/

theorem reaches_strongTargets_iff :
    Reaches g.strongTargets a b ↔ ReflTransGen g.DependsOn a b := by
  constructor
  · intro h
    induction h with
    | refl => exact .refl
    | step _ hc ih => exact ih.tail hc
  · intro h
    induction h with
    | refl => exact .refl
    | tail _ hc ih => exact ih.step hc

theorem mem_names_of_dependsOn (h : g.DependsOn a b) : a ∈ g.names := by
  by_contra hm
  have hnone : g.nodes.get? a = none := Table.get?_eq_none_iff.mpr hm
  rw [DependsOn, mem_strongTargets, edges, hnone] at h
  cases h

theorem isTangled_of_isComponent (h : IsComponent g.strongTargets group)
    (hn : {n | n ∈ group}.Nontrivial) : g.IsTangled {n | n ∈ group} :=
  ⟨hn, fun a ha b hb => reaches_strongTargets_iff.mp ((h.mem_iff a ha b).mp hb).1⟩

/-- **A group of two or more is a knot.** -/
theorem isKnot_of_isComponent (h : IsComponent g.strongTargets group)
    (hn : {n | n ∈ group}.Nontrivial) : g.IsKnot {n | n ∈ group} := by
  refine ⟨isTangled_of_isComponent h hn, fun L hL hle b hb => ?_⟩
  obtain ⟨a, ha⟩ := hn.nonempty
  exact (h.mem_iff a ha b).mpr ⟨reaches_strongTargets_iff.mpr (hL.2 a (hle ha) b hb),
    reaches_strongTargets_iff.mpr (hL.2 b hb a (hle ha))⟩

/-- **Every knot is a group.** -/
theorem IsKnot.exists_group (h : g.IsKnot K) (hc : AreComponents g.strongTargets g.names groups) :
    ∃ group ∈ groups, {n | n ∈ group} = K := by
  obtain ⟨a, ha, b, hb, hne⟩ := h.prop.1
  obtain ⟨c, hac, -⟩ := ((h.prop.2 a ha b hb).cases_head).resolve_left hne
  obtain ⟨group, hg, hag⟩ := List.mem_flatten.mp ((hc.mem_iff a).mpr (mem_names_of_dependsOn hac))
  have hsub : K ⊆ {n | n ∈ group} := fun d hd => ((hc.each group hg).mem_iff a hag d).mpr
    ⟨reaches_strongTargets_iff.mpr (h.prop.2 a ha d hd),
      reaches_strongTargets_iff.mpr (h.prop.2 d hd a ha)⟩
  have htangled := isTangled_of_isComponent (hc.each group hg) (h.prop.1.mono hsub)
  exact ⟨group, hg, Set.Subset.antisymm (h.2 htangled hsub) hsub⟩

theorem one_lt_length_iff (hnd : group.Nodup) :
    1 < group.length ↔ {n | n ∈ group}.Nontrivial := by
  constructor
  · intro hlen
    refine ⟨group[0], List.getElem_mem _, group[1], List.getElem_mem _, fun e => ?_⟩
    exact absurd ((hnd.getElem_inj_iff).mp e) Nat.zero_ne_one
  · rintro ⟨a, ha, b, hb, hne⟩
    have hpair : [a, b].Subperm group :=
      List.Nodup.subperm (by simpa using hne) (by simpa using ⟨ha, hb⟩)
    exact hpair.length_le

/-! ## Places -/

theorem pairwise_position_names (g : EmissionGraph) :
    g.names.Pairwise fun a b => g.position a < g.position b := by
  refine List.pairwise_iff_getElem.mpr fun i j hi hj hij => ?_
  show g.names.idxOf _ < g.names.idxOf _
  rwa [(nodup_names g).idxOf_getElem i hi, (nodup_names g).idxOf_getElem j hj]

theorem position_inj (ha : a ∈ g.names) : g.position a = g.position b ↔ a = b :=
  List.idxOf_inj ha

theorem sublist_names (hl : l ⊆ g.names) (hp : l.Pairwise fun a b => g.position a < g.position b) :
    l.Sublist g.names := by
  have : Std.Antisymm fun a b => g.position a < g.position b :=
    ⟨fun a b hab hba => absurd hab hba.asymm⟩
  have hnd : l.Nodup := hp.imp fun {a b} hlt (e : a = b) => Nat.lt_irrefl _ (e ▸ hlt)
  exact List.sublist_of_subperm_of_pairwise (hnd.subperm hl) hp (pairwise_position_names g)

theorem pairwise_lt_mergeSort {α : Type} {place : α → Nat} {xs : List α}
    (h : xs.Pairwise fun x y => place x ≠ place y) :
    (xs.mergeSort fun x y => place x ≤ place y).Pairwise fun x y => place x < place y := by
  have hle : (xs.mergeSort fun x y => place x ≤ place y).Pairwise fun x y =>
      decide (place x ≤ place y) = true :=
    List.pairwise_mergeSort (fun x y z hxy hyz => by simp at hxy hyz ⊢; omega)
      (fun x y => by simp; omega) xs
  have hne : (xs.mergeSort fun x y => place x ≤ place y).Pairwise fun x y => place x ≠ place y :=
    ((List.mergeSort_perm xs _).pairwise_iff fun hxy => Ne.symm hxy).mpr h
  exact (hle.and hne).imp fun ⟨hxy, hn⟩ => lt_of_le_of_ne (of_decide_eq_true hxy) hn

theorem mem_inOrder : a ∈ g.inOrder group ↔ a ∈ group := (List.mergeSort_perm group _).mem_iff

theorem inOrder_sublist (hnd : group.Nodup) (hs : group ⊆ g.names) :
    (g.inOrder group).Sublist g.names := by
  refine sublist_names (fun a ha => hs (mem_inOrder.mp ha)) (pairwise_lt_mergeSort ?_)
  exact hnd.imp_of_mem fun ha _ hne e => hne ((position_inj (hs ha)).mp e)

theorem pairwise_firstPosition (hd : groups.Pairwise List.Disjoint)
    (hne : ∀ group ∈ groups, group ≠ []) (hs : ∀ group ∈ groups, group ⊆ g.names) :
    groups.Pairwise fun x y => g.firstPosition x ≠ g.firstPosition y := by
  refine hd.imp_of_mem fun {x y} hx hy hxy e => ?_
  obtain ⟨a, as, rfl⟩ := List.exists_cons_of_ne_nil (hne x hx)
  obtain ⟨b, bs, rfl⟩ := List.exists_cons_of_ne_nil (hne y hy)
  obtain rfl : a = b := (position_inj (hs _ hx List.mem_cons_self)).mp e
  exact hxy List.mem_cons_self List.mem_cons_self

/-- A set is listed once if no two groups have a common member. -/
theorem existsUnique_of_disjoint (hd : groups.Pairwise List.Disjoint) (hK : K.Nonempty)
    (hg : group ∈ groups) (he : {n | n ∈ group} = K) :
    ∃! i : Fin groups.length, {n | n ∈ groups[i]} = K := by
  obtain ⟨i, hi, rfl⟩ := List.getElem_of_mem hg
  refine ⟨⟨i, hi⟩, he, fun j hj => ?_⟩
  obtain ⟨a, ha⟩ := hK
  have hai : a ∈ groups[i] := he.superset ha
  have haj : a ∈ groups[j.val] := hj.superset ha
  have hdisj := List.pairwise_iff_getElem.mp hd
  rcases Nat.lt_trichotomy j.val i with hlt | heq | hgt
  · exact absurd hai (hdisj _ _ j.isLt hi hlt haj)
  · exact Fin.ext heq
  · exact absurd haj (hdisj _ _ hi j.isLt hgt hai)

/-! ## The groups that are found -/

theorem mem_cycleGroups (h : components g.strongTargets g.names g.nodes.size = some groups) :
    group ∈ g.cycleGroups ↔ ∃ c ∈ groups, 1 < c.length ∧ g.inOrder c = group := by
  rw [names] at h
  rw [cycleGroups, (List.mergeSort_perm _ _).mem_iff, h, Option.getD_some, List.mem_map]
  simp only [List.mem_filter, decide_eq_true_eq, and_assoc]

theorem disjoint_cycleGroups (hc : AreComponents g.strongTargets g.names groups)
    (h : components g.strongTargets g.names g.nodes.size = some groups) :
    g.cycleGroups.Pairwise List.Disjoint := by
  rw [names] at h
  rw [cycleGroups, h, Option.getD_some,
    (List.mergeSort_perm _ _).pairwise_iff fun hd => List.disjoint_symm hd, List.pairwise_map]
  exact (hc.pairwise_disjoint.filter _).imp fun hd _ ha hb =>
    hd (mem_inOrder.mp ha) (mem_inOrder.mp hb)

theorem pairwise_cycleGroups (hd : g.cycleGroups.Pairwise List.Disjoint)
    (hne : ∀ group ∈ g.cycleGroups, group ≠ []) (hs : ∀ group ∈ g.cycleGroups, group ⊆ g.names) :
    g.cycleGroups.Pairwise fun x y => g.firstPosition x < g.firstPosition y := by
  have hplaces := pairwise_firstPosition hd hne hs
  rw [cycleGroups] at hplaces ⊢
  exact pairwise_lt_mergeSort
    (((List.mergeSort_perm _ _).pairwise_iff fun hxy => Ne.symm hxy).mp hplaces)

/-- **The groups that are found are the knots.** -/
theorem listsKnots_cycleGroups (hc : AreComponents g.strongTargets g.names groups)
    (h : components g.strongTargets g.names g.nodes.size = some groups) :
    g.ListsKnots g.cycleGroups := by
  have hset : ∀ c, {n | n ∈ g.inOrder c} = {n | n ∈ c} := fun c => Set.ext fun n => mem_inOrder
  have hknot : ∀ group ∈ g.cycleGroups, g.IsKnot {n | n ∈ group} := fun group hg => by
    obtain ⟨c, hcg, hlen, rfl⟩ := (mem_cycleGroups h).mp hg
    rw [hset]
    exact isKnot_of_isComponent (hc.each c hcg) ((one_lt_length_iff (hc.nodup_of_mem hcg)).mp hlen)
  have hsub : ∀ group ∈ g.cycleGroups, group.Sublist g.names := fun group hg => by
    obtain ⟨c, hcg, -, rfl⟩ := (mem_cycleGroups h).mp hg
    exact inOrder_sublist (hc.nodup_of_mem hcg) (hc.subset hcg)
  have hne : ∀ group ∈ g.cycleGroups, group ≠ [] := fun group hg => by
    obtain ⟨a, ha⟩ := (hknot group hg).prop.1.nonempty
    exact List.ne_nil_of_mem ha
  have hdisj := disjoint_cycleGroups hc h
  refine ⟨hknot, fun K hK => ?_, hdisj, fun group hg => (hsub group hg).nodup (nodup_names g), hsub,
    sublist_names (fun a ha => ?_) (List.pairwise_filterMap.mpr ?_)⟩
  · obtain ⟨c, hcg, rfl⟩ := hK.exists_group hc
    have hlen := (one_lt_length_iff (hc.nodup_of_mem hcg)).mpr hK.prop.1
    exact existsUnique_of_disjoint hdisj hK.prop.1.nonempty
      ((mem_cycleGroups h).mpr ⟨c, hcg, hlen, rfl⟩) (hset c)
  · obtain ⟨group, hg, hhead⟩ := List.mem_filterMap.mp ha
    exact (hsub group hg).subset (List.mem_of_head? hhead)
  · refine (pairwise_cycleGroups hdisj hne fun group hg => (hsub group hg).subset).imp ?_
    intro x y hxy a ha b hb
    rwa [firstPosition, firstPosition, ha, hb] at hxy

/-- **The groups of a graph that has been built.** Declarations are in the order in which they were
named first, and dependencies are strong if they were ever added as such. The walk comes to an end,
whatever the depth that it is allowed beyond the number of declarations; and the groups are the
knots, each once and in order. -/
theorem knots_build (changes : List Change) :
    (build changes).names = (Roster.ofList (changes.flatMap Change.names)).toList ∧
      (∀ a b, (build changes).DependsOn a b ↔ a ≠ b ∧ Change.edge a b true ∈ changes) ∧
      (∃ groups, ∀ depth, (build changes).names.length ≤ depth →
        components (build changes).strongTargets (build changes).names depth = some groups) ∧
      (build changes).ListsKnots (build changes).cycleGroups := by
  have hg := isClosed_build changes
  obtain ⟨groups, hc, hdepth⟩ := exists_components fun n _ t => hg.strongTargets_subset n t
  have h := hdepth _ (length_names (build changes)).le
  exact ⟨names_build changes, fun a b => dependsOn_build, ⟨groups, hdepth⟩,
    listsKnots_cycleGroups hc h⟩

/-- Cycles that have a declaration in common are one knot. -/
example : (build [.edge "a" "b" true, .edge "c" "b" true, .edge "b" "c" true, .edge "c" "d" true,
    .edge "d" "b" true, .edge "e" "f" true, .edge "f" "e" true, .edge "d" "e" false]).cycleGroups =
      [["b", "c", "d"], ["f", "e"]] := by cbv

end Bindery.EmissionGraph
