import Mathlib.Data.List.Perm.Subperm
import Mathlib.Logic.Relation
import Bindery.TypeShape

/-!
# Sites of a type expression

A type expression is a graph of nodes: type arguments, elements of arrays, members and parameters,
and what these declare. A site is a node with the way that leads to it.

* `Site`, `Tree.sitesIn`: the sites right below a site.
* `Site.of_mem_below`: where a step leads.
* `Tree.Leads`: the sites below a site; `Tree.sites`: the same as a list, once for each way.
* `Tree.Ends`: how long the ways below a site are.
* **`Tree.ends_of_level_le`**: ways that do not nest too deeply end.
* **`Tree.ends_size`**: ways that end have no more nodes than the tree.
-/

namespace Bindery

/-- What a node is in a type expression. -/
inductive Role where
  | type
  /-- A member of an object type, or a parameter. -/
  | member
  | typeParameter
  deriving DecidableEq, Repr

/-- A place in a type expression. -/
structure Site where
  slot : Slot
  role : Role := .type
  /-- How deep the place lies. -/
  level : Nat := 0
  /-- The outermost of the arrays that a type is the element of, through parentheses and through
  look-ups of its members. -/
  around : Option Span := none
  /-- The way leads through no index of a look-up and through nothing that a type parameter says. -/
  isRead : Bool := true
  deriving DecidableEq, Repr

namespace Site

variable (s : Site) (slot : Slot)

/-- A type below a site. -/
def type : Site := { s with slot, role := .type, level := s.level + 1, around := none }

/-- A member or parameter below a site. -/
def member : Site := { s with slot, role := .member, around := none }

/-- A type parameter below a site. -/
def typeParameter : Site := { s with slot, role := .typeParameter, around := none }

/-- A site with this array around it. -/
def inside (around : Option Span) : Site := { s with around }

/-- A site that is not read. -/
def unread : Site := { s with isRead := false }

/-- The type parameters, the parameters and the result of a signature. -/
def signature (typeParameters parameters : List Slot) (result : Slot) : List Site :=
  typeParameters.map s.typeParameter ++ parameters.map s.member ++ [s.type result]

/-- The sites right below a site, by the span and the form of its node. -/
def below (span : Span) : Form → List Site
  | .typeReference _ arguments | .instantiation _ arguments => arguments.map s.type
  | .arrayType item => [(s.type item).inside (s.around.or (some span))]
  | .parenthesizedType inner => [(s.type inner).inside s.around]
  | .indexedAccess object index =>
    [(s.type object).inside s.around, (s.type index).unread]
  | .combination _ types | .tupleType types => types.map s.type
  | .typeLiteral members => members.map s.member
  | .functionType typeParameters parameters result => s.signature typeParameters parameters result
  | .propertySignature _ _ annotation => [s.type annotation]
  | .field .parameter _ parts => [s.type parts.annotation]
  | .methodSignature _ _ typeParameters parameters result =>
    { s with level := s.level + 1 }.signature typeParameters parameters result
  | .typeParameter _ constraint fallback => [(s.type constraint).unread, (s.type fallback).unread]
  | _ => []

/-- What a node is, and the node. -/
def key : Role × Slot := (s.role, s.slot)

/-- A measure of depth that grows with every step. -/
def climb : Nat := 2 * s.level + if s.role = .type then 0 else 1

end Site

/-- What a node of this form is in a type expression. -/
def Form.role : Form → Role
  | .propertySignature .. | .field .. | .methodSignature .. => .member
  | .typeParameter .. => .typeParameter
  | _ => .type

namespace Site

variable {s s' : Site}

theorem of_mem_signature {typeParameters parameters : List Slot} {result : Slot}
    (h : s' ∈ s.signature typeParameters parameters result) : s'.isRead = s.isRead ∧
      (s'.level = s.level ∧ s'.role ≠ .type ∨ s'.level = s.level + 1) := by
  simp only [Site.signature, List.mem_append, List.mem_map, List.mem_singleton] at h
  rcases h with (⟨i, -, rfl⟩ | ⟨i, -, rfl⟩) | rfl
  · exact ⟨rfl, .inl ⟨rfl, nofun⟩⟩
  · exact ⟨rfl, .inl ⟨rfl, nofun⟩⟩
  · exact ⟨rfl, .inr rfl⟩

/-- **Where a step leads**: deeper, or from a type to what is no type, and never to a site that is
read from one that is not. -/
theorem of_mem_below {span : Span} {form : Form} (h : s' ∈ s.below span form) :
    (s'.isRead = s.isRead ∨ s'.isRead = false) ∧
      (s.level < s'.level ∨ s'.level = s.level ∧ form.role = .type ∧ s'.role ≠ .type) := by
  cases form with
  | typeReference _ types | instantiation _ types | combination _ types | tupleType types =>
    obtain ⟨i, -, rfl⟩ := List.mem_map.mp h
    exact ⟨.inl rfl, .inl (Nat.lt_succ_self _)⟩
  | typeLiteral members =>
    obtain ⟨i, -, rfl⟩ := List.mem_map.mp h
    exact ⟨.inl rfl, .inr ⟨rfl, rfl, nofun⟩⟩
  | arrayType _ | parenthesizedType _ | propertySignature _ _ _ =>
    cases List.mem_singleton.mp h
    exact ⟨.inl rfl, .inl (Nat.lt_succ_self _)⟩
  | indexedAccess object index =>
    rcases List.mem_pair.mp h with rfl | rfl
    · exact ⟨.inl rfl, .inl (Nat.lt_succ_self _)⟩
    · exact ⟨.inr rfl, .inl (Nat.lt_succ_self _)⟩
  | typeParameter _ constraint fallback =>
    rcases List.mem_pair.mp h with rfl | rfl <;> exact ⟨.inr rfl, .inl (Nat.lt_succ_self _)⟩
  | functionType _ _ _ =>
    obtain ⟨hread, ⟨hlevel, hrole⟩ | hlevel⟩ := of_mem_signature h
    · exact ⟨.inl hread, .inr ⟨hlevel, rfl, hrole⟩⟩
    · exact ⟨.inl hread, .inl (hlevel ▸ Nat.lt_succ_self _)⟩
  | methodSignature _ _ _ _ _ =>
    obtain ⟨hread, hlevel⟩ := of_mem_signature h
    refine ⟨.inl hread, .inl ?_⟩
    dsimp only at hlevel
    omega
  | field kind header parts =>
    cases kind with
    | property => cases h
    | parameter =>
      cases List.mem_singleton.mp h
      exact ⟨.inl rfl, .inl (Nat.lt_succ_self _)⟩
  | _ => cases h

end Site

namespace Tree

variable (t : Tree)

/-- The sites right below a site, in source order. -/
def sitesIn (s : Site) : List Site :=
  match t.node? s.slot with
  | some n => if n.form.role = s.role then s.below n.span n.form else []
  | none => []

/-- The sites from a site downwards, at most as many steps as the number says: a site before those
below it, once for each way that leads to it. -/
def sites : Nat → Site → List Site
  | 0, _ => []
  | n + 1, s => s :: (t.sitesIn s).flatMap (sites n)

/-- The site `s'` lies below `s`, or is `s`. -/
def Leads (s s' : Site) : Prop := Relation.ReflTransGen (fun s s' => s' ∈ t.sitesIn s) s s'

/-- No way from a site downwards has `n` steps. -/
def Ends : Nat → Site → Prop
  | 0, _ => False
  | n + 1, s => ∀ s' ∈ t.sitesIn s, Ends n s'

instance decidableEnds : (n : Nat) → (s : Site) → Decidable (t.Ends n s)
  | 0, _ => isFalse id
  | n + 1, s =>
    have := decidableEnds n
    inferInstanceAs (Decidable (∀ s' ∈ t.sitesIn s, t.Ends n s'))

variable {t} {s s' : Site} {n m : Nat}

theorem mem_sitesIn : s' ∈ t.sitesIn s ↔ ∃ node, t.node? s.slot = some node ∧
    node.form.role = s.role ∧ s' ∈ s.below node.span node.form := by
  rw [sitesIn]
  cases t.node? s.slot with
  | none => simp
  | some node => simp

theorem isRead_of_mem_sitesIn (h : s' ∈ t.sitesIn s) (hs : s.isRead = false) :
    s'.isRead = false := by
  obtain ⟨node, -, -, h⟩ := mem_sitesIn.mp h
  exact (Site.of_mem_below h).1.elim (·.trans hs) id

theorem isRead_of_typeParameter (hr : s.role = .typeParameter) (h : s' ∈ t.sitesIn s) :
    s'.isRead = false := by
  obtain ⟨node, -, hrole, h⟩ := mem_sitesIn.mp h
  cases hf : node.form with
  | typeParameter _ constraint fallback =>
    rw [hf] at h
    rcases List.mem_pair.mp h with rfl | rfl <;> rfl
  | _ =>
    rw [hf, hr] at hrole
    cases hrole

/-! ## Ways that end -/

theorem Ends.mono (h : t.Ends n s) (hm : n ≤ m) : t.Ends m s := by
  induction n generalizing m s with
  | zero => exact h.elim
  | succ n ih =>
    cases m with
    | zero => exact absurd hm (Nat.not_succ_le_zero n)
    | succ m => exact fun s' hs => ih (h s' hs) (Nat.le_of_succ_le_succ hm)

theorem sites_eq_of_ends (h : t.Ends n s) (hm : n ≤ m) : t.sites m s = t.sites n s := by
  induction n generalizing m s with
  | zero => exact h.elim
  | succ n ih =>
    cases m with
    | zero => exact absurd hm (Nat.not_succ_le_zero n)
    | succ m =>
      rw [sites, sites, List.flatMap_congr]
      exact fun s' hs => ih (h s' hs) (Nat.le_of_succ_le_succ hm)

theorem leads_of_mem_sites (h : s' ∈ t.sites n s) : t.Leads s s' := by
  induction n generalizing s with
  | zero => cases h
  | succ n ih =>
    rcases List.mem_cons.mp h with rfl | h
    · exact .refl
    · obtain ⟨k, hk, h⟩ := List.mem_flatMap.mp h
      exact .head hk (ih h)

theorem mem_sites_self (h : t.Ends n s) : s ∈ t.sites n s := by
  cases n with
  | zero => exact h.elim
  | succ n => exact List.mem_cons_self

/-- **When all ways have ended**, the sites are all that lie below. -/
theorem mem_sites (h : t.Ends n s) : s' ∈ t.sites n s ↔ t.Leads s s' := by
  refine ⟨leads_of_mem_sites, fun hl => ?_⟩
  induction hl using Relation.ReflTransGen.head_induction_on generalizing n with
  | refl => exact mem_sites_self h
  | head hk _ ih =>
    cases n with
    | zero => exact h.elim
    | succ n => exact List.mem_cons_of_mem _ (List.mem_flatMap.mpr ⟨_, hk, ih (h _ hk)⟩)

/-! ## Levels -/

/-- **Every step leads deeper.** -/
theorem climb_lt (h : s' ∈ t.sitesIn s) : s.climb < s'.climb := by
  obtain ⟨node, -, hrole, h⟩ := mem_sitesIn.mp h
  rw [Site.climb, Site.climb]
  obtain ⟨-, hlevel | ⟨hlevel, htype, hmember⟩⟩ := Site.of_mem_below h
  · split_ifs <;> omega
  · rw [if_pos (hrole.symm.trans htype), if_neg hmember]
    omega

theorem ends_of_level_le (h : ∀ k, t.Leads s k → k.level ≤ TypeShape.maxDepth)
    (hn : 2 * TypeShape.maxDepth + 2 ≤ s.climb + n) : t.Ends n s := by
  have hs : s.climb ≤ 2 * TypeShape.maxDepth + 1 := by
    have := h s .refl
    rw [Site.climb]
    split_ifs <;> omega
  induction n generalizing s with
  | zero => omega
  | succ n ih =>
    intro s' hs'
    have hk : ∀ k, t.Leads s' k → k.level ≤ TypeShape.maxDepth := fun k hk => h k (.head hs' hk)
    have hlt := climb_lt hs'
    refine ih hk (by omega) ?_
    have := hk s' .refl
    rw [Site.climb]
    split_ifs <;> omega

/-! ## The number of steps -/

theorem keys_below {s s' : Site} (span : Span) (form : Form) :
    (s.below span form).map Site.key = (s'.below span form).map Site.key := by
  have hs : ∀ (u v : Site) tps ps r, (u.signature tps ps r).map Site.key =
      (v.signature tps ps r).map Site.key := fun u v tps ps r => by
    simp [Site.signature, Function.comp_def, Site.key, Site.typeParameter, Site.member, Site.type]
  cases form with
  | functionType _ _ _ | methodSignature _ _ _ _ _ => exact hs _ _ _ _ _
  | field kind _ _ => cases kind <;> rfl
  | _ =>
    simp [Site.below, Function.comp_def, Site.key, Site.member, Site.type, Site.inside, Site.unread]

theorem keys_sitesIn (h : s.key = s'.key) :
    (t.sitesIn s).map Site.key = (t.sitesIn s').map Site.key := by
  obtain ⟨hrole, hslot⟩ := Prod.mk.inj h
  rw [sitesIn, sitesIn, hslot, hrole]
  cases t.node? s'.slot with
  | none => rfl
  | some node =>
    dsimp only
    split_ifs
    · exact keys_below _ _
    · rfl

theorem Ends.of_key (h : t.Ends n s) (hk : s.key = s'.key) : t.Ends n s' := by
  induction n generalizing s s' with
  | zero => exact h
  | succ n ih =>
    intro k' hk'
    have hm : k'.key ∈ (t.sitesIn s).map Site.key := by
      rw [keys_sitesIn hk]
      exact List.mem_map_of_mem hk'
    obtain ⟨k, hks, hkk⟩ := List.mem_map.mp hm
    exact ih (h k hks) hkk

theorem exists_node_of_mem_sitesIn (h : s' ∈ t.sitesIn s) :
    ∃ i node, s.slot = some i ∧ i < t.size ∧ t.node? s.slot = some node ∧
      node.form.role = s.role := by
  obtain ⟨node, hnode, hrole, -⟩ := mem_sitesIn.mp h
  cases hi : s.slot with
  | none =>
    rw [hi] at hnode
    cases hnode
  | some i =>
    rw [hi] at hnode
    exact ⟨i, node, rfl, (Array.getElem?_eq_some_iff.mp hnode).1, hnode, hrole⟩

/-- **The longest way down** leads through different nodes. -/
theorem exists_nodup_of_ends (h : t.Ends (n + 1) s) (hn : ¬t.Ends n s) :
    ∃ path : List Nat, path.Nodup ∧ path.length = n ∧ ∀ i ∈ path, i < t.size ∧
      ∃ k : Site, k.slot = some i ∧ t.Ends (n + 1) k ∧ t.sitesIn k ≠ [] := by
  induction n generalizing s with
  | zero => exact ⟨[], .nil, rfl, fun _ hi => absurd hi List.not_mem_nil⟩
  | succ n ih =>
    obtain ⟨s', hs', hns'⟩ : ∃ s' ∈ t.sitesIn s, ¬t.Ends n s' := by
      simpa [Ends] using hn
    obtain ⟨path, hnodup, hlength, hpath⟩ := ih (h s' hs') hns'
    obtain ⟨i, node, hi, hlt, hnode, hrole⟩ := exists_node_of_mem_sitesIn hs'
    refine ⟨i :: path, List.nodup_cons.mpr ⟨fun hmem => ?_, hnodup⟩, congrArg (· + 1) hlength,
      fun j hj => ?_⟩
    · -- The same node further down would have a shorter way.
      obtain ⟨-, k, hk, hends, hne⟩ := hpath i hmem
      obtain ⟨k', hk'⟩ := List.exists_mem_of_ne_nil _ hne
      obtain ⟨-, node', -, -, hnode', hrole'⟩ := exists_node_of_mem_sitesIn hk'
      rw [hk, ← hi, hnode] at hnode'
      cases hnode'
      exact hn (Ends.of_key hends (Prod.ext (hrole'.symm.trans hrole) (hk.trans hi.symm)))
    · rcases List.mem_cons.mp hj with rfl | hj
      · exact ⟨hlt, s, hi, h, List.ne_nil_of_mem hs'⟩
      · obtain ⟨hjlt, k, hk, hends, hne⟩ := hpath j hj
        exact ⟨hjlt, k, hk, hends.mono (Nat.le_succ _), hne⟩

/-- **Ways that end have no more steps than the tree has nodes.** -/
theorem ends_size (h : t.Ends n s) : t.Ends (t.size + 1) s := by
  induction n with
  | zero => exact h.elim
  | succ n ih =>
    by_cases hn : t.Ends n s
    · exact ih hn
    · obtain ⟨path, hnodup, hlength, hpath⟩ := exists_nodup_of_ends h hn
      have hsub : path ⊆ List.range t.size := fun i hi => List.mem_range.mpr (hpath i hi).1
      have hle := (List.subperm_of_subset hnodup hsub).length_le
      rw [hlength, List.length_range] at hle
      exact h.mono (Nat.succ_le_succ hle)

end Tree

end Bindery
