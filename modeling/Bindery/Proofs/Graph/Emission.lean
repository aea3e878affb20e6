import Mathlib.Data.List.Perm.Subperm
import Mathlib.Data.List.TakeWhile
import Mathlib.Tactic.SplitIfs
import Bindery.Graph.Emission
import Bindery.Proofs.Table

/-!
# The order of emission respects strong dependencies

* `EmissionGraph.mem_strongTargets_addEdge`: what an edge adds to a graph.
* `EmissionGraph.IsClosed`: the targets of every edge are declarations of the graph.
* `EmissionGraph.IsSorted`: an order in which strong targets come first.
* **`EmissionGraph.IsSorted.emit`**, **`EmissionGraph.isSorted_order`**: emission finds one.
-/

namespace Bindery.EmissionGraph

variable {g : EmissionGraph} {name source target n t : String} {strong : Bool}

/-! ## Building a graph -/

/-- The declarations of a graph. -/
def names (g : EmissionGraph) : List String := g.nodes.keys

theorem contains_iff : g.contains n = true ↔ n ∈ g.names := Table.contains_iff

theorem mem_names_addNode : n ∈ (g.addNode name).names ↔ n ∈ g.names ∨ n = name := by
  unfold addNode
  split_ifs with h
  · rw [contains_iff] at h
    exact ⟨.inl, fun hn => hn.elim id fun e => e ▸ h⟩
  · rw [contains_iff] at h
    show n ∈ (g.nodes.insert name []).keys ↔ _
    rw [Table.keys_insert, if_neg (show name ∉ g.nodes.keys from h), List.mem_append,
      List.mem_singleton]
    rfl

theorem edges_addNode : (g.addNode name).edges n = g.edges n := by
  unfold addNode
  split_ifs with h
  · rfl
  · rw [contains_iff] at h
    rw [edges, edges]
    show ((g.nodes.insert name []).get? n).getD [] = _
    rw [Table.get?_insert]
    split_ifs with hn
    · rw [hn, Table.get?_eq_none_iff.mpr h]
      rfl
    · rfl

theorem mem_strongTargets : t ∈ g.strongTargets n ↔ ⟨t, true⟩ ∈ g.edges n := by
  rw [strongTargets, List.mem_map]
  constructor
  · rintro ⟨⟨t, strong⟩, he, rfl⟩
    obtain ⟨he, rfl⟩ := List.mem_filter.mp he
    exact he
  · exact fun he => ⟨_, List.mem_filter.mpr ⟨he, rfl⟩, rfl⟩

/-- An edge that is added leads to its target, and is strong if it or an older one is. -/
theorem mem_targets_addTo (edge : EmissionEdge) (es : List EmissionEdge) (t : String) :
    t ∈ (addTo edge es).map EmissionEdge.target ↔
      t = edge.target ∨ t ∈ es.map EmissionEdge.target := by
  induction es with
  | nil => simp [addTo]
  | cons e es ih =>
    unfold addTo
    split_ifs with h
    · simp only [List.map_cons, List.mem_cons, h]
      tauto
    · simp only [List.map_cons, List.mem_cons, ih]
      tauto

theorem strong_mem_addTo (edge : EmissionEdge) (es : List EmissionEdge) (t : String) :
    ⟨t, true⟩ ∈ addTo edge es ↔ edge = ⟨t, true⟩ ∨ ⟨t, true⟩ ∈ es := by
  induction es with
  | nil => simp [addTo, eq_comm]
  | cons e es ih =>
    obtain ⟨target, strong⟩ := e
    obtain ⟨target', strong'⟩ := edge
    unfold addTo
    split_ifs with h
    · obtain rfl : target = target' := h
      simp only [List.mem_cons, EmissionEdge.mk.injEq, Bool.true_eq, Bool.or_eq_true]
      constructor
      · rintro (⟨rfl, hs | hs⟩ | he)
        · exact .inr (.inl ⟨rfl, hs⟩)
        · exact .inl ⟨rfl, hs⟩
        · exact .inr (.inr he)
      · rintro (⟨rfl, hs⟩ | ⟨rfl, hs⟩ | he)
        · exact .inl ⟨rfl, .inr hs⟩
        · exact .inl ⟨rfl, .inl hs⟩
        · exact .inr he
    · rw [List.mem_cons, List.mem_cons, ih, or_left_comm]

theorem edges_addEdge : (g.addEdge source target strong).edges n =
    if n = source ∧ source ≠ target then addTo ⟨target, strong⟩ (g.edges n) else g.edges n := by
  unfold addEdge
  split_ifs with hst hn hn
  · exact absurd hst hn.2
  · rfl
  · have hs : source ∈ ((g.addNode target).addNode source).names :=
      mem_names_addNode.mpr (.inr rfl)
    obtain ⟨es, hes⟩ := Table.mem_keys.mp hs
    have he : ((g.addNode target).addNode source).edges source = g.edges source := by
      rw [edges_addNode, edges_addNode]
    rw [edges, hes, Option.getD_some] at he
    rw [edges, Table.get?_modify, if_pos hn.1, hn.1, hes, Option.map_some, Option.getD_some, he]
  · have he : ((g.addNode target).addNode source).edges n = g.edges n := by
      rw [edges_addNode, edges_addNode]
    rw [edges, Table.get?_modify, if_neg fun h => hn ⟨h, hst⟩]
    exact he

/-- **What an edge adds** to the strong dependencies. -/
theorem mem_strongTargets_addEdge : t ∈ (g.addEdge source target strong).strongTargets n ↔
    t ∈ g.strongTargets n ∨ n = source ∧ t = target ∧ source ≠ target ∧ strong = true := by
  rw [mem_strongTargets, edges_addEdge, mem_strongTargets]
  split_ifs with h
  · rw [strong_mem_addTo, EmissionEdge.mk.injEq]
    simp only [h.1, h.2, ne_eq, not_false_eq_true, true_and, eq_comm (a := target)]
    exact or_comm
  · refine ⟨.inl, fun hc => hc.elim id fun hc => absurd ⟨hc.1, hc.2.2.1⟩ h⟩

theorem mem_targets_addEdge : t ∈ (g.addEdge source target strong).targets n ↔
    t ∈ g.targets n ∨ n = source ∧ t = target ∧ source ≠ target := by
  rw [targets, edges_addEdge, targets]
  split_ifs with h
  · rw [mem_targets_addTo]
    simp only [h.1, h.2, ne_eq, not_false_eq_true, true_and, and_true]
    exact or_comm
  · exact ⟨.inl, fun hc => hc.elim id fun hc => absurd ⟨hc.1, hc.2.2⟩ h⟩

theorem mem_names_addEdge : n ∈ (g.addEdge source target strong).names ↔
    n ∈ g.names ∨ source ≠ target ∧ (n = target ∨ n = source) := by
  unfold addEdge
  split_ifs with h
  · simp [h]
  · show n ∈ (Table.modify _ _ _).keys ↔ _
    rw [Table.keys_modify]
    show n ∈ ((g.addNode target).addNode source).names ↔ _
    rw [mem_names_addNode, mem_names_addNode]
    tauto

/-! ## Closed graphs -/

/-- **Every target is a declaration of the graph.** -/
def IsClosed (g : EmissionGraph) : Prop := ∀ n, ∀ t ∈ g.targets n, t ∈ g.names

theorem isClosed_empty : IsClosed {} := fun n t ht => by cases ht

theorem IsClosed.addNode (h : g.IsClosed) (name : String) : (g.addNode name).IsClosed := by
  intro n t ht
  rw [targets, edges_addNode] at ht
  exact mem_names_addNode.mpr (.inl (h n t ht))

theorem IsClosed.addEdge (h : g.IsClosed) (source target : String) (strong : Bool) :
    (g.addEdge source target strong).IsClosed := by
  intro n t ht
  rw [targets, edges_addEdge] at ht
  rw [mem_names_addEdge]
  split_ifs at ht with hn
  · rcases (mem_targets_addTo _ _ _).mp ht with rfl | ht
    · exact .inr ⟨hn.2, .inl rfl⟩
    · exact .inl (h n t ht)
  · exact .inl (h n t ht)

theorem IsClosed.strongTargets_subset (h : g.IsClosed) (n : String) :
    ∀ t ∈ g.strongTargets n, t ∈ g.names := by
  intro t ht
  exact h n t (List.mem_map.mpr ⟨_, mem_strongTargets.mp ht, rfl⟩)

/-! ## Emission -/

/-- **Strong targets come first.** -/
def IsSorted (g : EmissionGraph) (order : List String) : Prop :=
  ∀ pre n post, order = pre ++ n :: post → ∀ t ∈ g.strongTargets n, t ∈ pre

theorem isSorted_nil : g.IsSorted [] := by
  intro pre n post h
  cases pre <;> cases h

theorem IsSorted.concat {order : List String} (h : g.IsSorted order)
    (hn : ∀ t ∈ g.strongTargets n, t ∈ order) : g.IsSorted (order ++ [n]) := by
  intro pre m post he t ht
  rcases List.eq_nil_or_concat post with rfl | ⟨post, z, rfl⟩
  · obtain ⟨rfl, hm⟩ := List.append_inj' he rfl
    cases hm
    exact hn t ht
  · rw [List.concat_eq_append, ← List.cons_append, ← List.append_assoc] at he
    obtain ⟨rfl, -⟩ := List.append_inj' he rfl
    exact h pre m post rfl t ht

/-- What emission adds to an order. -/
structure Emits (g : EmissionGraph) (order order' : List String) : Prop where
  sorted : g.IsSorted order'
  grows : order <+: order'

theorem Emits.foldlM {emit : List String → String → Except StrongCycle (List String)}
    {ns : List String}
    (he : ∀ n ∈ ns, ∀ order order', g.IsSorted order → emit order n = .ok order' →
      g.Emits order order' ∧ n ∈ order')
    {order order' : List String} (hs : g.IsSorted order) (h : ns.foldlM emit order = .ok order') :
    g.Emits order order' ∧ ∀ n ∈ ns, n ∈ order' := by
  induction ns generalizing order with
  | nil =>
    cases h
    exact ⟨⟨hs, List.prefix_rfl⟩, fun n hn => by cases hn⟩
  | cons n ns ih =>
    rw [List.foldlM_cons] at h
    cases hn : emit order n with
    | error c =>
      rw [hn] at h
      cases h
    | ok mid =>
      rw [hn] at h
      rw [List.forall_mem_cons] at he
      obtain ⟨h₁, hm⟩ := he.1 order mid hs hn
      obtain ⟨h₂, hall⟩ := ih he.2 h₁.sorted h
      exact ⟨⟨h₂.sorted, h₁.grows.trans h₂.grows⟩,
        List.forall_mem_cons.mpr ⟨h₂.grows.subset hm, hall⟩⟩

/-- **Emission of one declaration.** The path has no repeats, so the recursion does not run out. -/
theorem IsSorted.emit (hc : g.IsClosed) {fuel : Nat} {path order order' : List String}
    (hs : g.IsSorted order) (hn : n ∈ g.names) (hp : path.Nodup) (hsub : path ⊆ g.names)
    (hf : g.nodes.size < fuel + path.length) (h : g.emit fuel path order n = .ok order') :
    g.Emits order order' ∧ n ∈ order' := by
  induction fuel generalizing path order order' n with
  | zero =>
    have hlen : path.length ≤ g.names.length := (hp.subperm hsub).length_le
    have hsize : g.names.length = g.nodes.size := by rw [names, Table.keys, List.length_map]; rfl
    omega
  | succ fuel ih =>
    rw [EmissionGraph.emit] at h
    split at h
    · rename_i hd
      have hnew : n ∉ path := fun hm => by
        have := List.dropWhile_eq_nil_iff.mp hd n hm
        simp at this
      split_ifs at h with hm
      · cases h
        exact ⟨⟨hs, List.prefix_rfl⟩, hm⟩
      · have hpath : (path ++ [n]).Nodup :=
          hp.append (List.nodup_singleton n) (by simpa using hnew)
        have hsub' : path ++ [n] ⊆ g.names :=
          List.append_subset.mpr ⟨hsub, by simpa using hn⟩
        have hlen : g.nodes.size < fuel + (path ++ [n]).length := by
          rw [List.length_append, List.length_singleton]
          omega
        cases hfold : (g.strongTargets n).foldlM (g.emit fuel (path ++ [n])) order with
        | error c =>
          rw [hfold] at h
          cases h
        | ok mid =>
          rw [hfold] at h
          cases h
          obtain ⟨hmid, hall⟩ := Emits.foldlM (fun t ht _ _ hs' ho =>
            ih hs' (hc.strongTargets_subset n t ht) hpath hsub' hlen ho) hs hfold
          exact ⟨⟨hmid.sorted.concat hall, hmid.grows.trans (List.prefix_append _ _)⟩,
            List.mem_append_right _ (List.mem_singleton_self n)⟩
    · cases h

/-- **The order of emission** holds every declaration, after those it strongly depends on. -/
theorem isSorted_order (hc : g.IsClosed) {order : List String} (h : g.order = .ok order) :
    g.IsSorted order ∧ ∀ n ∈ g.names, n ∈ order := by
  obtain ⟨he, hall⟩ := Emits.foldlM (fun n hn _ _ hs ho => hs.emit hc hn List.nodup_nil
    (List.nil_subset _) (by rw [List.length_nil]; omega) ho) isSorted_nil h
  exact ⟨he.sorted, hall⟩

end Bindery.EmissionGraph
