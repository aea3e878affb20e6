import Mathlib.Data.List.Chain
import Mathlib.Logic.Relation
import Bindery.Proofs.Graph.Built

/-!
# Orders of emission, and cycles in the way

* `EmissionGraph.IsEmission`: every declaration once, after those that it strongly depends on.
* `EmissionGraph.IsCycle`: strong dependencies from a declaration back to itself.
* `EmissionGraph.Appends`: what an emission adds to what has been emitted.
* **`EmissionGraph.isCycle_of_emit`**: emission is refused for a cycle only.
* **`EmissionGraph.emits_build`**: there is an order unless there is a cycle, and it is found.
-/

namespace Bindery.EmissionGraph

open Relation

variable {g : EmissionGraph} {n t : String} {path order order' : List String} {c : StrongCycle}

/-- **Every declaration once**, after those that it strongly depends on. -/
structure IsEmission (g : EmissionGraph) (order : List String) : Prop where
  nodup : order.Nodup
  mem_iff : ∀ n, n ∈ order ↔ n ∈ g.names
  sorted : g.IsSorted order

/-- **Strong dependencies from a declaration back to itself**, through at least one other and none
twice. -/
def IsCycle (g : EmissionGraph) (path : List String) : Prop :=
  ∃ n others, path = n :: others ++ [n] ∧ others ≠ [] ∧ (n :: others).Nodup ∧
    path.IsChain g.DependsOn

/-! ## Refusals -/

theorem exists_of_foldlM_eq_error {α β ε : Type} {f : β → α → Except ε β} {xs : List α} {b : β}
    {err : ε} (h : xs.foldlM f b = .error err) : ∃ x ∈ xs, ∃ b', f b' x = .error err := by
  induction xs generalizing b with
  | nil => cases h
  | cons x xs ih =>
    rw [List.foldlM_cons] at h
    cases hx : f b x with
    | error e =>
      rw [hx] at h
      cases h
      exact ⟨x, List.mem_cons_self, b, hx⟩
    | ok b' =>
      rw [hx] at h
      obtain ⟨y, hy, hb⟩ := ih h
      exact ⟨y, List.mem_cons_of_mem x hy, hb⟩

/-- **An emission is refused for a cycle only**: the path leads to its end through strong
dependencies, and goes through its end before. -/
theorem isCycle_of_emit (hirr : ∀ n, ¬g.DependsOn n n) {fuel : Nat} (hp : path.Nodup)
    (hc : (path ++ [n]).IsChain g.DependsOn) (h : g.emit fuel path order n = .error c) :
    g.IsCycle c.path := by
  induction fuel generalizing path order n with
  | zero => cases h
  | succ fuel ih =>
    rw [emit] at h
    split at h
    · rename_i hd
      have hnew : n ∉ path := fun hm => by simpa using List.dropWhile_eq_nil_iff.mp hd n hm
      split_ifs at h
      cases hfold : (g.strongTargets n).foldlM (g.emit fuel (path ++ [n])) order with
      | ok order' =>
        rw [hfold] at h
        cases h
      | error err =>
        rw [hfold] at h
        cases h
        obtain ⟨t, ht, order', ho⟩ := exists_of_foldlM_eq_error hfold
        refine ih (hp.append (List.nodup_singleton n) (by simpa using hnew)) ?_ ho
        rw [List.isChain_append]
        refine ⟨hc, List.isChain_singleton t, fun a ha b hb => ?_⟩
        rw [List.getLast?_concat, Option.mem_some_iff] at ha
        rw [List.head?_singleton, Option.mem_some_iff] at hb
        exact ha ▸ hb ▸ ht
    · rename_i hd
      cases h
      -- The loop starts where the path has met the declaration before.
      set loop := path.dropWhile (· ≠ n) with hloop
      have hsuffix : loop <:+ path := List.dropWhile_suffix _
      obtain ⟨m, others, hm⟩ := List.exists_cons_of_ne_nil hd
      obtain rfl : m = n := by
        have hfirst := List.head?_dropWhile_not (· ≠ n) path
        rw [← hloop, hm] at hfirst
        simpa using hfirst
      have hchain : (loop ++ [m]).IsChain g.DependsOn := by
        obtain ⟨front, hfront⟩ := hsuffix
        refine hc.suffix ⟨front, ?_⟩
        rw [← List.append_assoc, hfront]
      refine ⟨m, others, by rw [hm], fun hnil => ?_, hm ▸ hp.sublist hsuffix.sublist, hchain⟩
      rw [hm, hnil] at hchain
      exact hirr m (List.isChain_cons_cons.mp hchain).1

theorem isCycle_of_order (hirr : ∀ n, ¬g.DependsOn n n) (h : g.order = .error c) :
    g.IsCycle c.path := by
  obtain ⟨n, -, order, ho⟩ := exists_of_foldlM_eq_error h
  exact isCycle_of_emit hirr List.nodup_nil (List.isChain_singleton n) ho

/-! ## Orders -/

/-- **What an emission adds**: declarations of the graph, none twice and none of its path. -/
structure Appends (g : EmissionGraph) (path order order' : List String) : Prop where
  nodup : order.Nodup → order'.Nodup
  known : order ⊆ g.names → order' ⊆ g.names
  spared : ∀ n ∈ path, n ∈ order' → n ∈ order

theorem Appends.refl (g : EmissionGraph) (path order : List String) : g.Appends path order order :=
  ⟨id, id, fun _ _ => id⟩

theorem Appends.foldlM {emit : List String → String → Except StrongCycle (List String)}
    {ns : List String} (he : ∀ n ∈ ns, ∀ order order', emit order n = .ok order' →
      g.Appends path order order') (h : ns.foldlM emit order = .ok order') :
    g.Appends path order order' := by
  induction ns generalizing order with
  | nil =>
    cases h
    exact .refl g path _
  | cons n ns ih =>
    rw [List.foldlM_cons] at h
    cases hn : emit order n with
    | error err =>
      rw [hn] at h
      cases h
    | ok mid =>
      rw [hn] at h
      rw [List.forall_mem_cons] at he
      have h₁ := he.1 order mid hn
      have h₂ := ih he.2 h
      exact ⟨fun hd => h₂.nodup (h₁.nodup hd), fun hk => h₂.known (h₁.known hk),
        fun m hm ho => h₁.spared m hm (h₂.spared m hm ho)⟩

/-- The declaration itself is on the path while those that it depends on are emitted, so that it is
not emitted before its turn. -/
theorem appends_of_emit (hg : g.IsClosed) {fuel : Nat} (hn : n ∈ g.names)
    (h : g.emit fuel path order n = .ok order') : g.Appends path order order' := by
  induction fuel generalizing path order order' n with
  | zero =>
    cases h
    exact .refl g path _
  | succ fuel ih =>
    rw [emit] at h
    split at h
    · rename_i hd
      have hnew : n ∉ path := fun hm => by simpa using List.dropWhile_eq_nil_iff.mp hd n hm
      split_ifs at h with hm
      · cases h
        exact .refl g path _
      · cases hfold : (g.strongTargets n).foldlM (g.emit fuel (path ++ [n])) order with
        | error err =>
          rw [hfold] at h
          cases h
        | ok mid =>
          rw [hfold] at h
          cases h
          have hmid : g.Appends (path ++ [n]) order mid := Appends.foldlM (fun t ht _ _ ho =>
            ih (hg.strongTargets_subset n t ht) ho) hfold
          have hlate : n ∉ mid := fun hc => hm (hmid.spared n (by simp) hc)
          refine ⟨fun hnd => ?_, fun hk => ?_, fun m hmp ho => ?_⟩
          · exact (hmid.nodup hnd).append (List.nodup_singleton n) (by simpa using hlate)
          · exact List.append_subset.mpr ⟨hmid.known hk, by simpa using hn⟩
          · rcases List.mem_append.mp ho with ho | ho
            · exact hmid.spared m (List.mem_append_left _ hmp) ho
            · rw [List.mem_singleton.mp ho] at hmp
              exact absurd hmp hnew
    · cases h

theorem isEmission_order (hg : g.IsClosed) (h : g.order = .ok order) : g.IsEmission order := by
  have ha : g.Appends [] [] order :=
    Appends.foldlM (fun n hn _ _ ho => appends_of_emit hg hn ho) h
  obtain ⟨hs, hall⟩ := isSorted_order hg h
  exact ⟨ha.nodup List.nodup_nil, fun n => ⟨fun hn => ha.known (List.nil_subset _) hn, hall n⟩, hs⟩

theorem IsEmission.idxOf_lt (h : g.IsEmission order) (hn : n ∈ order) (ht : g.DependsOn n t) :
    order.idxOf t < order.idxOf n := by
  obtain ⟨pre, post, rfl⟩ := List.append_of_mem hn
  have hpre : t ∈ pre := h.sorted pre n post rfl t ht
  have hnew : n ∉ pre := fun hm =>
    (List.nodup_append.mp h.nodup).2.2 n hm n List.mem_cons_self rfl
  rw [List.idxOf_append_of_mem hpre, List.idxOf_append_of_notMem hnew]
  exact Nat.lt_of_lt_of_le (List.idxOf_lt_length_iff.mpr hpre) (Nat.le_add_right _ _)

/-! ## Cycles -/

theorem transGen_of_isChain {α : Type} {r : α → α → Prop} {a b : α} {l : List α}
    (h : (a :: l ++ [b]).IsChain r) : TransGen r a b := by
  induction l generalizing a with
  | nil => exact .single (List.isChain_cons_cons.mp h).1
  | cons c l ih =>
    obtain ⟨hac, hrest⟩ := List.isChain_cons_cons.mp h
    exact .head hac (ih hrest)

/-- **There is an order unless there is a cycle.** -/
theorem isOk_order_iff (hg : g.IsClosed) (hirr : ∀ n, ¬g.DependsOn n n) :
    (∃ order, g.order = .ok order) ↔ ∀ n, ¬TransGen g.DependsOn n n := by
  constructor
  · rintro ⟨order, h⟩ n hn
    have he := isEmission_order hg h
    have hmem : ∀ {a b}, g.DependsOn a b → a ∈ order := fun {a b} hab => by
      by_contra hc
      have hnone : g.nodes.get? a = none := Table.get?_eq_none_iff.mpr fun hm =>
        hc ((he.mem_iff a).mpr hm)
      rw [DependsOn, mem_strongTargets, edges, hnone] at hab
      cases hab
    have hlt : ∀ {a b}, TransGen g.DependsOn a b → order.idxOf b < order.idxOf a := by
      intro a b hab
      induction hab with
      | single hab => exact he.idxOf_lt (hmem hab) hab
      | tail _ hbc ih => exact Nat.lt_trans (he.idxOf_lt (hmem hbc) hbc) ih
    exact Nat.lt_irrefl _ (hlt hn)
  · intro hacyclic
    cases h : g.order with
    | ok order => exact ⟨order, rfl⟩
    | error c =>
      obtain ⟨n, others, hpath, -, -, hchain⟩ := isCycle_of_order hirr h
      rw [hpath] at hchain
      exact absurd (transGen_of_isChain hchain) (hacyclic n)

/-- **The order of emission.** Dependencies are strong if they were ever added as such. An order
that is found holds every declaration once, after those that it strongly depends on; there is one
exactly if the strong dependencies are without cycles, whatever the others are; and a refusal names
a cycle. -/
theorem emits_build (changes : List Change) :
    (∀ a b, (build changes).DependsOn a b ↔ a ≠ b ∧ Change.edge a b true ∈ changes) ∧
      (∀ order, (build changes).order = .ok order → (build changes).IsEmission order) ∧
      ((∃ order, (build changes).order = .ok order) ↔
        ∀ n, ¬TransGen (build changes).DependsOn n n) ∧
      (∀ c, (build changes).order = .error c → (build changes).IsCycle c.path) ∧
      ((∀ a b, Change.edge a b true ∉ changes) → ∃ order, (build changes).order = .ok order) := by
  have hg := isClosed_build changes
  have hirr := not_dependsOn_self changes
  refine ⟨fun a b => dependsOn_build, fun order h => isEmission_order hg h,
    isOk_order_iff hg hirr, fun c h => isCycle_of_order hirr h, fun hweak => ?_⟩
  refine (isOk_order_iff hg hirr).mpr fun n hn => ?_
  obtain ⟨t, ht, -⟩ := TransGen.head'_iff.mp hn
  exact hweak n t (dependsOn_build.mp ht).2

end Bindery.EmissionGraph
