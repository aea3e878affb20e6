import Mathlib.Data.List.Induction
import Mathlib.Data.List.Perm.Subperm
import Mathlib.Data.List.Range
import Mathlib.Logic.Function.Iterate
import Mathlib.Logic.Relation
import Bindery.Tree.Basic

/-!
# Parents of nodes

The links from nodes to their parents are made on a walk that keeps the nodes still to be visited on
a stack. A node that several nodes have as a child is visited several times, and the link made last
stays.

* `Tree.IsChild`, `Tree.Acyclic`: the graph of nodes and their children.
* `Tree.linkTurn`: one turn of the walk.
* `Tree.EndsWithin`: ways down that end; **`Tree.Acyclic.endsWithin`**: none is longer than the tree
  has nodes.
* `Tree.mem_adoptionsBelow`: the links that are made; **`Tree.exists_iterate_linkTurn`**: the walk
  comes to its end and makes just these, in their order.
* `Tree.lastParent?`, `Tree.parent_foldl_adopt`: the link made last stays.
* `Tree.IsPruned`: a tree with and without the children that do not exist.
* **`Tree.adopts_link`**: the parents of all nodes after the walk.
-/

namespace Bindery

namespace Tree

open Relation

variable (t : Tree)

/-! ## Ways down -/

/-- The node `c` is a child of `p`. It need not exist. -/
def IsChild (p c : Nat) : Prop := c ∈ t.children (some p)

instance (p c : Nat) : Decidable (t.IsChild p c) :=
  inferInstanceAs (Decidable (c ∈ t.children (some p)))

/-- **No node lies below itself.** -/
def Acyclic : Prop := ∀ i, ¬TransGen t.IsChild i i

/-- No way from a node downwards has `n` steps. -/
def EndsWithin : Nat → Nat → Prop
  | 0, _ => False
  | n + 1, i => ∀ c ∈ t.children (some i), EndsWithin n c

/-- **One turn of the walk**, with the tree as it is linked so far and the nodes still to be
visited, the next one first: its children are linked to it and will be visited next, beginning with
the last one. -/
def linkTurn : Tree × List Nat → Tree × List Nat
  | (t, []) => (t, [])
  | (t, p :: stack) =>
    ((t.children (some p)).foldl (fun t c => t.adopt (c, p)) t,
      (t.children (some p)).reverse ++ stack)

/-- The parent to which a node is linked last. -/
def lastParent? (pairs : List (Nat × Nat)) (c : Nat) : Option Nat :=
  (pairs.reverse.find? (·.1 = c)).map Prod.snd

variable {t} {t' : Tree} {c i p q root n m : Nat} {pairs : List (Nat × Nat)}

theorem node?_of_le (h : t.size ≤ p) : t.node? (some p) = none := Array.getElem?_eq_none h

theorem children_of_le (h : t.size ≤ p) : t.children (some p) = [] := by
  rw [children, form?, node?_of_le h]
  rfl

theorem lt_of_isChild (h : t.IsChild p c) : p < t.size := by
  by_contra hp
  rw [IsChild, children_of_le (Nat.le_of_not_lt hp)] at h
  cases h

theorem acyclic_of_forall (rank : Nat → Nat)
    (h : ∀ p < t.size, ∀ c ∈ t.children (some p), rank c < rank p) : t.Acyclic := by
  intro i hi
  have hdown : ∀ j, TransGen t.IsChild i j → rank j < rank i := fun j hj => by
    induction hj with
    | single hc => exact h _ (lt_of_isChild hc) _ hc
    | tail _ hc ih => exact (h _ (lt_of_isChild hc) _ hc).trans ih
  exact Nat.lt_irrefl _ (hdown i hi)

/-- A way down through different nodes cannot go on for longer than there are nodes. -/
theorem Acyclic.endsWithin_of_path (ht : t.Acyclic) {path : List Nat} (hnodup : path.Nodup)
    (hlt : ∀ p ∈ path, p < t.size) (hreach : ∀ p ∈ path, TransGen t.IsChild p i)
    (hn : t.size < path.length + n) : t.EndsWithin n i := by
  induction n generalizing i path with
  | zero =>
    have hsub : path ⊆ List.range t.size := fun p hp => List.mem_range.mpr (hlt p hp)
    have hle := (List.subperm_of_subset hnodup hsub).length_le
    rw [List.length_range] at hle
    omega
  | succ n ih =>
    intro c hc
    have hnew : i ∉ path := fun hi => ht i (hreach i hi)
    refine ih (List.nodup_cons.mpr ⟨hnew, hnodup⟩) (fun p hp => ?_)
      (fun p hp => ?_) (by rw [List.length_cons]; omega)
    · rcases List.mem_cons.mp hp with rfl | hp
      · exact lt_of_isChild hc
      · exact hlt p hp
    · rcases List.mem_cons.mp hp with rfl | hp
      · exact .single hc
      · exact (hreach p hp).tail hc

/-- **Without cycles**, no way down has more steps than the tree has nodes. -/
theorem Acyclic.endsWithin (ht : t.Acyclic) (i : Nat) : t.EndsWithin (t.size + 1) i :=
  ht.endsWithin_of_path .nil (fun _ hp => absurd hp List.not_mem_nil)
    (fun _ hp => absurd hp List.not_mem_nil) (by simp)

/-! ## The links of the walk -/

theorem mem_adoptionsBelow (h : t.EndsWithin n p) :
    (c, q) ∈ t.adoptionsBelow n p ↔ ReflTransGen t.IsChild p q ∧ t.IsChild q c := by
  induction n generalizing p with
  | zero => exact h.elim
  | succ n ih =>
    rw [adoptionsBelow, List.mem_append, List.mem_map, List.mem_flatMap]
    constructor
    · rintro (⟨d, hd, heq⟩ | ⟨d, hd, hmem⟩)
      · obtain ⟨rfl, rfl⟩ := Prod.mk.inj heq
        exact ⟨.refl, hd⟩
      · rw [List.mem_reverse] at hd
        obtain ⟨hreach, hchild⟩ := (ih (h d hd)).mp hmem
        exact ⟨.head hd hreach, hchild⟩
    · rintro ⟨hreach, hchild⟩
      rcases hreach.cases_head with rfl | ⟨d, hd, hreach⟩
      · exact .inl ⟨c, hchild, rfl⟩
      · exact .inr ⟨d, List.mem_reverse.mpr hd, (ih (h d hd)).mpr ⟨hreach, hchild⟩⟩

theorem mem_adoptions (ht : t.Acyclic) :
    (c, q) ∈ t.adoptions root ↔ ReflTransGen t.IsChild root q ∧ t.IsChild q c :=
  mem_adoptionsBelow (ht.endsWithin root)

@[simp] theorem children_adopt (t : Tree) (pair : Nat × Nat) (i : Slot) :
    (t.adopt pair).children i = t.children i := by
  rw [children, form?_adopt, children]

@[simp] theorem children_foldl_adopt (t : Tree) (pairs : List (Nat × Nat)) (i : Slot) :
    (pairs.foldl adopt t).children i = t.children i := by
  induction pairs generalizing t with
  | nil => rfl
  | cons pair pairs ih => rw [List.foldl_cons, ih, children_adopt]

theorem exists_iterate_of_forall {cs : List Nat}
    (h : ∀ c ∈ cs, ∀ t', (∀ i, t'.children i = t.children i) → ∀ stack, ∃ k,
      linkTurn^[k] (t', c :: stack) = ((t.adoptionsBelow n c).foldl adopt t', stack))
    (ht' : ∀ i, t'.children i = t.children i) (stack : List Nat) : ∃ k,
      linkTurn^[k] (t', cs ++ stack) =
        ((cs.flatMap (t.adoptionsBelow n)).foldl adopt t', stack) := by
  induction cs generalizing t' with
  | nil => exact ⟨0, rfl⟩
  | cons c cs ih =>
    obtain ⟨k, hk⟩ := h c List.mem_cons_self t' ht' (cs ++ stack)
    have hsame (i : Option Nat) :
        ((t.adoptionsBelow n c).foldl adopt t').children i = t.children i := by
      rw [children_foldl_adopt, ht' i]
    obtain ⟨l, hl⟩ := ih (fun d hd => h d (List.mem_cons_of_mem c hd)) hsame
    refine ⟨l + k, ?_⟩
    rw [Function.iterate_add_apply, List.cons_append, hk, hl, List.flatMap_cons, List.foldl_append]

/-- **The walk ends**: from a node it comes back to the stack below it, after it has made the links
below that node. The induction is on the number of steps that ways down may have. -/
theorem exists_iterate_linkTurn (h : t.EndsWithin n p) (ht' : ∀ i, t'.children i = t.children i)
    (stack : List Nat) : ∃ k,
      linkTurn^[k] (t', p :: stack) = ((t.adoptionsBelow n p).foldl adopt t', stack) := by
  induction n generalizing p t' stack with
  | zero => exact h.elim
  | succ n ih =>
    have hturn : linkTurn (t', p :: stack) =
        (((t.children (some p)).map (·, p)).foldl adopt t',
          (t.children (some p)).reverse ++ stack) := by
      rw [linkTurn, ht', List.foldl_map]
    have hsame (i : Option Nat) :
        (((t.children (some p)).map (·, p)).foldl adopt t').children i = t.children i := by
      rw [children_foldl_adopt, ht' i]
    have hbelow : ∀ c ∈ (t.children (some p)).reverse, t.EndsWithin n c := fun c hc =>
      h c (List.mem_reverse.mp hc)
    obtain ⟨k, hk⟩ := exists_iterate_of_forall (fun c hc t' ht' stack => ih (hbelow c hc) ht' stack)
      hsame stack
    refine ⟨k + 1, ?_⟩
    rw [Function.iterate_succ_apply, hturn, hk, adoptionsBelow, List.foldl_append]

/-! ## The link made last -/

theorem lastParent?_concat (pairs : List (Nat × Nat)) (pair : Nat × Nat) (c : Nat) :
    lastParent? (pairs ++ [pair]) c =
      if pair.1 = c then some pair.2 else lastParent? pairs c := by
  rw [lastParent?, List.reverse_append, List.reverse_singleton, List.singleton_append,
    List.find?_cons]
  by_cases h : pair.1 = c <;> simp [h, lastParent?]

theorem node?_foldl_adopt (t : Tree) (pairs : List (Nat × Nat)) (c : Nat) :
    (pairs.foldl adopt t).node? (some c) = (t.node? (some c)).map fun node =>
      { node with parent := (lastParent? pairs c).or node.parent } := by
  induction pairs using List.reverseRecOn with
  | nil => exact (Option.map_id_apply).symm
  | append_singleton pairs pair ih =>
    rw [List.foldl_append, List.foldl_cons, List.foldl_nil, node?_adopt, ih, lastParent?_concat]
    cases t.node? (some c) with
    | none => rfl
    | some node => by_cases h : pair.1 = c <;> simp [h]

/-- **The link made last stays.** -/
theorem parent_foldl_adopt (t : Tree) (pairs : List (Nat × Nat)) (hc : c < t.size) :
    (pairs.foldl adopt t).parent (some c) = (lastParent? pairs c).or (t.parent (some c)) := by
  have hnode : t.node? (some c) = some t.nodes[c] := Array.getElem?_eq_getElem hc
  rw [parent, node?_foldl_adopt, parent, hnode]
  rfl

theorem mem_of_lastParent? (h : lastParent? pairs c = some p) : (c, p) ∈ pairs := by
  obtain ⟨pair, hfind, rfl⟩ := Option.map_eq_some_iff.mp h
  have hfirst : pair.1 = c := by simpa using List.find?_some hfind
  rw [← hfirst]
  exact List.mem_reverse.mp (List.mem_of_find?_eq_some hfind)

theorem lastParent?_eq_none (h : ∀ p, (c, p) ∉ pairs) : lastParent? pairs c = none := by
  cases hlast : lastParent? pairs c with
  | none => rfl
  | some p => exact absurd (mem_of_lastParent? hlast) (h p)

theorem exists_lastParent? (h : (c, p) ∈ pairs) : ∃ q, lastParent? pairs c = some q := by
  cases hlast : lastParent? pairs c with
  | some q => exact ⟨q, rfl⟩
  | none =>
    rw [lastParent?, Option.map_eq_none_iff, List.find?_eq_none] at hlast
    have hne : c ≠ c := by simpa using hlast (c, p) (List.mem_reverse.mpr h)
    exact absurd rfl hne

/-! ## The tree after the walk -/

theorem link_eq (t : Tree) (root : Nat) :
    t.link root = (t.adoptions root).foldl adopt { t with root := some root } := by
  rw [link]
  generalize t.adoptions root = pairs
  induction pairs using List.reverseRecOn with
  | nil => rfl
  | append_singleton pairs pair ih =>
    rw [List.foldl_append, List.foldl_append, ← ih]
    rfl

theorem parent_link (t : Tree) (root : Nat) (hc : c < t.size) :
    (t.link root).parent (some c) =
      (lastParent? (t.adoptions root) c).or (t.parent (some c)) := by
  rw [link_eq]
  exact parent_foldl_adopt { t with root := some root } (t.adoptions root) hc

/-- Walking changes the parents of nodes and nothing else. -/
theorem node?_link (t : Tree) (root c : Nat) :
    ∃ parent, (t.link root).node? (some c) =
      (t.node? (some c)).map fun node => { node with parent := parent } := by
  rw [link_eq, node?_foldl_adopt]
  cases h : t.node? (some c) with
  | none => exact ⟨none, by rw [node?] at h ⊢; exact congrArg _ h⟩
  | some node =>
    refine ⟨(lastParent? (t.adoptions root) c).or node.parent, ?_⟩
    rw [node?] at h ⊢
    exact congrArg _ h

theorem parent_link_of_le (t : Tree) (root : Nat) (h : t.size ≤ c) :
    (t.link root).parent (some c) = t.parent (some c) := by
  obtain ⟨_, hnode⟩ := node?_link t root c
  rw [parent, parent, hnode, node?_of_le h]
  rfl

/-! ## Children that do not exist -/

variable (t t') in
/-- **The same tree without the children that do not exist.** -/
structure IsPruned : Prop where
  size : t'.size = t.size
  parent : ∀ i, t'.parent i = t.parent i
  children : ∀ i, t'.children i = (t.children i).filter (· < t.size)

theorem adoptionsBelow_of_le (h : t.size ≤ p) (n : Nat) : t.adoptionsBelow n p = [] := by
  cases n with
  | zero => rfl
  | succ n => rw [adoptionsBelow, children_of_le h, List.map_nil, List.reverse_nil]; rfl

/-- A child that does not exist has nothing below it, so that only the link to it is left out. -/
theorem IsPruned.adoptionsBelow (h : t.IsPruned t') (n p : Nat) :
    t'.adoptionsBelow n p = (t.adoptionsBelow n p).filter (·.1 < t.size) := by
  induction n generalizing p with
  | zero => rfl
  | succ n ih =>
    rw [Tree.adoptionsBelow, Tree.adoptionsBelow, List.filter_append, h.children, List.filter_map,
      List.filter_flatMap, ← List.filter_reverse]
    refine congrArg₂ _ rfl ?_
    induction (t.children (some p)).reverse with
    | nil => rfl
    | cons c cs ihcs =>
      rw [List.filter_cons, List.flatMap_cons]
      split_ifs with hc
      · rw [List.flatMap_cons, ih, ihcs]
      · rw [adoptionsBelow_of_le (by simpa using hc), ihcs]
        rfl

theorem lastParent?_filter (hc : c < m) :
    lastParent? (pairs.filter (·.1 < m)) c = lastParent? pairs c := by
  rw [lastParent?, lastParent?, ← List.filter_reverse, List.find?_filter]
  congr 2
  funext pair
  by_cases h : pair.1 = c <;> simp [h, hc]

/-- **Children that do not exist change nothing.** -/
theorem IsPruned.parent_link (h : t.IsPruned t') (root c : Nat) :
    (t'.link root).parent (some c) = (t.link root).parent (some c) := by
  by_cases hc : c < t.size
  · rw [Tree.parent_link _ _ (h.size ▸ hc), Tree.parent_link _ _ hc, adoptions, adoptions, h.size,
      h.adoptionsBelow, lastParent?_filter hc, h.parent]
  · have hle := Nat.le_of_not_lt hc
    rw [parent_link_of_le t root hle, parent_link_of_le t' root (h.size.le.trans hle), h.parent]

/-! ## Parents after the walk -/

theorem exists_parent_link (ht : t.Acyclic) (hc : c < t.size) (hne : c ≠ root)
    (hreach : ReflTransGen t.IsChild root c) :
    ∃ p, (t.link root).parent (some c) = some p ∧ ReflTransGen t.IsChild root p ∧
      t.IsChild p c := by
  obtain heq | ⟨q, hq, hchild⟩ := ReflTransGen.cases_tail hreach
  · exact absurd heq hne
  obtain ⟨p, hp⟩ := exists_lastParent? ((mem_adoptions ht).mpr ⟨hq, hchild⟩)
  have hmem := (mem_adoptions ht).mp (mem_of_lastParent? hp)
  exact ⟨p, by rw [parent_link t root hc, hp]; rfl, hmem⟩

theorem parent_link_of_not (ht : t.Acyclic) (h : ¬ReflTransGen t.IsChild root c ∨ c = root) :
    (t.link root).parent (some c) = t.parent (some c) := by
  by_cases hc : c < t.size
  · rw [parent_link t root hc, lastParent?_eq_none fun p hp => ?_]
    · rfl
    obtain ⟨hreach, hchild⟩ := (mem_adoptions ht).mp hp
    rcases h with h | rfl
    · exact h (hreach.tail hchild)
    · exact ht c (TransGen.tail' hreach hchild)
  · exact parent_link_of_le t root (Nat.le_of_not_lt hc)

/-- **The parents of all nodes after the walk**, in a tree without cycles. The walk comes to an end.
Then each node below the root has a parent that is reached and has it as a child; its parent is
whatever has it as a child, if that is one node only; and the root and what is not reached keep the
parents that they had. Nothing but parents is changed, and children that do not exist make no
difference. -/
theorem adopts_link (t : Tree) (ht : t.Acyclic) (root : Nat) :
    (∃ k, linkTurn^[k] ({ t with root := some root }, [root]) = (t.link root, [])) ∧
    (∀ c < t.size, c ≠ root → ReflTransGen t.IsChild root c →
      ∃ p, (t.link root).parent (some c) = some p ∧ ReflTransGen t.IsChild root p ∧
        t.IsChild p c) ∧
    (∀ c, ¬ReflTransGen t.IsChild root c ∨ c = root →
      (t.link root).parent (some c) = t.parent (some c)) ∧
    (∀ c < t.size, c ≠ root → ReflTransGen t.IsChild root c →
      (∀ p q, t.IsChild p c → t.IsChild q c → p = q) →
        ∀ p, (t.link root).parent (some c) = some p ↔ t.IsChild p c) ∧
    (∀ c, ∃ parent, (t.link root).node? (some c) =
      (t.node? (some c)).map fun node => { node with parent := parent }) ∧
    ∀ t', t.IsPruned t' → ∀ c, (t'.link root).parent (some c) = (t.link root).parent (some c) := by
  refine ⟨?_, fun c hc hne hreach => exists_parent_link ht hc hne hreach,
    fun c h => parent_link_of_not ht h, fun c hc hne hreach honly p => ?_, node?_link t root,
    fun t' h => h.parent_link root⟩
  · rw [link_eq]
    have hsame (i : Option Nat) : ({ t with root := some root } : Tree).children i = t.children i :=
      rfl
    exact exists_iterate_linkTurn (ht.endsWithin root) hsame []
  · obtain ⟨q, hq, -, hchild⟩ := exists_parent_link ht hc hne hreach
    rw [hq, Option.some.injEq]
    exact ⟨fun h => h ▸ hchild, fun h => honly q p hchild h⟩

/-- A block, with a child that does not exist, around a sum of which a name is a part twice; and a
statement around the same name that stands elsewhere. -/
def sharedTree : Tree where
  file := "t.avt"
  source := "\x7b -x + x \x7d"
  nodes := #[⟨.identifier "x", ⟨3, 4⟩, none⟩, ⟨.unary (some 0), ⟨2, 4⟩, none⟩,
    ⟨.binary (some 1) (some 0), ⟨2, 8⟩, none⟩, ⟨.block [some 2, some 9], ⟨0, 10⟩, some 8⟩,
    ⟨.wrapper .expressionStatement (some 0), ⟨3, 4⟩, some 7⟩]

/-- The same block without the child that does not exist. -/
def sharedTree' : Tree :=
  { sharedTree with nodes := sharedTree.nodes.set! 3 ⟨.block [some 2], ⟨0, 10⟩, some 8⟩ }

theorem acyclic_sharedTree : sharedTree.Acyclic :=
  acyclic_of_forall (fun i => if i < 5 then i + 1 else 0) (by decide +kernel)

theorem isPruned_sharedTree : sharedTree.IsPruned sharedTree' where
  size := rfl
  parent := by
    rintro (_ | i)
    · rfl
    · rcases Nat.lt_or_ge i 5 with hi | hi
      · exact (by decide +kernel : ∀ i < 5, sharedTree'.parent (some i) =
          sharedTree.parent (some i)) i hi
      · rw [Tree.parent, Tree.parent, node?_of_le (t := sharedTree') hi,
          node?_of_le (t := sharedTree) hi]
  children := by
    rintro (_ | i)
    · rfl
    · rcases Nat.lt_or_ge i 5 with hi | hi
      · exact (by decide +kernel : ∀ i < 5, sharedTree'.children (some i) =
          (sharedTree.children (some i)).filter (· < 5)) i hi
      · rw [children_of_le (t := sharedTree') hi, children_of_le (t := sharedTree) hi]
        rfl

/-- The name has the parent that comes by it last; what the block does not hold keeps its parent. -/
theorem adopts_link_sharedTree : sharedTree.Acyclic ∧ sharedTree.IsPruned sharedTree' ∧
    (∃ k, linkTurn^[k] ({ sharedTree with root := some 3 }, [3]) = (sharedTree.link 3, [])) ∧
    (∃ p, (sharedTree.link 3).parent (some 0) = some p ∧
      ReflTransGen sharedTree.IsChild 3 p ∧ sharedTree.IsChild p 0) ∧
    (sharedTree.link 3).parent (some 3) = some 8 ∧
    (∀ p, (sharedTree.link 3).parent (some 2) = some p ↔ sharedTree.IsChild p 2) ∧
    (sharedTree'.link 3).parent (some 0) = some 1 := by
  have h3 : ReflTransGen sharedTree.IsChild 3 2 := .single (by decide +kernel)
  have h0 : ReflTransGen sharedTree.IsChild 3 0 := h3.tail (by decide +kernel)
  have honly : ∀ p, sharedTree.IsChild p 2 → p = 3 := fun p hp =>
    (by decide +kernel : ∀ p < 5, 2 ∈ sharedTree.children (some p) → p = 3) p (lt_of_isChild hp) hp
  obtain ⟨hwalk, hparent, hkeep, hiff, -, hpruned⟩ := adopts_link sharedTree acyclic_sharedTree 3
  refine ⟨acyclic_sharedTree, isPruned_sharedTree, hwalk, hparent 0 (by decide) (by decide) h0,
    ?_, hiff 2 (by decide) (by decide) h3 fun p q hp hq => (honly p hp).trans (honly q hq).symm, ?_⟩
  · rw [hkeep 3 (.inr rfl)]
    rfl
  · rw [hpruned sharedTree' isPruned_sharedTree]
    decide +kernel

end Tree

end Bindery
