import Bindery.Proofs.TypeShape.References

/-!
# What a shape leaves out

A type expression mentions the names of all of its sites. Its shape holds those of the sites that
are read, so it leaves a name out exactly if the name stands in the index of a look-up, or in the
constraint or the default of a type parameter.

* `Tree.mention?`: the name that a site mentions.
* `Tree.IsWhole`: a type expression that does not nest too deeply, with all names there.
* `Tree.isSome_ofNode?`: it has a shape, if whatever is in arrays, parentheses and look-ups is a
  type.
* `Tree.perm_filterMap_filter_iff`: what is left out of a list.
* **`Tree.covers_ofNode?`**: the names that a shape holds, and when these are all.
-/

namespace Bindery

open TypeShape (build references maxDepth)

/-- What a type in an array, in parentheses or before a look-up is. -/
def Form.operand? : Form → Option Slot
  | .arrayType type | .parenthesizedType type | .indexedAccess type _ => some type
  | _ => none

namespace Tree

variable (t : Tree)

/-- The name that a site mentions. -/
def mention? (s : Site) : Option String := (t.reference? s).map t.text

/-- A node that is a type. -/
def IsType (i : Slot) : Prop := ∃ form, t.form? i = some form ∧ form.isType = true

/-- **What lies below a site is there as a whole**: it does not nest too deeply, and the name of
whatever refers to something by name is there. -/
structure IsWhole (s : Site) : Prop where
  level : ∀ k, t.Leads s k → k.level ≤ maxDepth
  named : ∀ k, t.Leads s k → ∀ name, t.reference? k = some name → (t.span? name).isSome = true

/-- A type, and types in all arrays, parentheses and look-ups below it. -/
structure HasTypes (s : Site) : Prop where
  type : t.IsType s.slot
  operand : ∀ k, t.Leads s k → ∀ form, t.form? k.slot = some form →
    ∀ j, form.operand? = some j → t.IsType j

variable {t} {s s' : Site} {n : Nat} {i : Slot}

theorem IsWhole.child (h : t.IsWhole s) (hs : s' ∈ t.sitesIn s) : t.IsWhole s' :=
  ⟨fun k hk => h.level k (.head hs hk), fun k hk => h.named k (.head hs hk)⟩

theorem IsWhole.reads (h : t.IsWhole s) (hr : s.isRead = true) : t.Reads s :=
  ⟨hr, h.level, fun k hk name hname _ => h.named k hk name hname⟩

theorem IsWhole.map_value_word? (h : t.IsWhole s) (hs : t.Leads s s') :
    (t.word? s').map TypeWord.value = t.mention? s' := by
  rw [mention?]
  cases hname : t.reference? s' with
  | none =>
    rw [word?, hname]
    cases t.node? s'.slot <;> rfl
  | some name =>
    obtain ⟨k, hk, -⟩ := reference?_eq_some_iff.mp hname
    obtain ⟨w, hw⟩ := Option.isSome_iff_exists.mp (h.named s' hs name hname)
    rw [word?_eq_some_iff.mpr ⟨k, name, w, hk, hname, hw, rfl⟩]
    rfl

/-- **The names that a shape holds** are those of the sites that are read, in order. -/
theorem values_ofNode? (h : t.IsWhole { slot := i }) (hn : maxSteps ≤ n) :
    ((TypeShape.ofNode? t i).toList.flatMap references).map TypeWord.value =
      ((t.sites n { slot := i }).filter (·.isRead)).filterMap t.mention? := by
  rw [references_ofNode? (h.reads rfl) hn, wordsFrom, List.map_filterMap]
  exact List.filterMap_congr fun s hs =>
    h.map_value_word? (leads_of_mem_sites (List.mem_of_mem_filter hs))

/-! ## Shapes that exist -/

theorem isSome_build {fuel : Nat} (hends : t.Ends n s) (hfuel : n ≤ fuel) (hr : s.role = .type)
    (h : t.IsWhole s) (ht : t.HasTypes s) : (build t fuel s.level s.slot).isSome = true := by
  induction n generalizing fuel s with
  | zero => exact hends.elim
  | succ n ih =>
    obtain ⟨fuel, rfl⟩ : ∃ k, fuel = k + 1 := ⟨fuel - 1, by omega⟩
    obtain ⟨form, hform, htype⟩ := ht.type
    obtain ⟨node, hnode, rfl⟩ := Option.map_eq_some_iff.mp hform
    have hname : ∀ name, node.form.reference? = some name → (t.span? name).isSome = true :=
      fun name hname => h.named s .refl name (by rw [reference?_eq hnode, if_pos hr, hname])
    have hinner : ∀ j around, node.form.operand? = some j → node.form.role = .type →
        (s.type j).inside around ∈ s.below node.span node.form →
          (build t fuel (s.level + 1) j).isSome = true := fun j around hj hrole hk => by
      have hk : (s.type j).inside around ∈ t.sitesIn s :=
        mem_sitesIn.mpr ⟨node, hnode, hrole.trans hr.symm, hk⟩
      exact ih (hends _ hk) (Nat.le_of_succ_le_succ hfuel) rfl (h.child hk)
        ⟨ht.operand s .refl _ hform j hj, fun k hl => ht.operand k (.head hk hl)⟩
    rw [build, if_neg (Nat.not_lt.mpr (h.level s .refl)), hnode]
    dsimp only
    cases hf : node.form with
    | typeReference name _ | instantiation name _ | typeQuery name =>
      dsimp only
      rw [Option.isSome_map]
      exact hname name (by rw [hf]; rfl)
    | arrayType j =>
      rw [hf] at hinner
      dsimp only
      rw [Option.isSome_map]
      exact hinner j _ rfl rfl List.mem_cons_self
    | parenthesizedType j | indexedAccess j index =>
      rw [hf] at hinner
      exact hinner j _ rfl rfl List.mem_cons_self
    | keywordType _ | literalType _ | combination _ _ | tupleType _ | typeLiteral _
    | functionType _ _ _ => rfl
    | _ =>
      rw [hf] at htype
      cases htype

theorem isSome_ofNode? (h : t.IsWhole { slot := i }) (ht : t.HasTypes { slot := i }) :
    (TypeShape.ofNode? t i).isSome = true :=
  isSome_build (s := { slot := i }) (ends_size (ends_maxSteps h.level)) (by omega) rfl h ht

/-! ## What is left out -/

theorem perm_filterMap_filter_iff {α β : Type} {p : α → Bool} {f : α → Option β} {l : List α} :
    ((l.filter p).filterMap f).Perm (l.filterMap f) ↔
      ∀ a ∈ l, (f a).isSome = true → p a = true := by
  constructor
  · intro h a ha hf
    by_contra hp
    obtain ⟨front, rest, rfl⟩ := List.append_of_mem ha
    have hsub : (((front ++ a :: rest).filter p).filterMap f).Sublist
        ((front ++ rest).filterMap f) := by
      rw [List.filter_append, List.filter_cons_of_neg hp, ← List.filter_append]
      exact List.filter_sublist.filterMap f
    obtain ⟨b, hb⟩ := Option.isSome_iff_exists.mp hf
    have hlength := h.length_eq ▸ hsub.length_le
    rw [List.filterMap_append, List.filterMap_cons_some hb, List.filterMap_append,
      List.length_append, List.length_append, List.length_cons] at hlength
    omega
  · intro h
    rw [List.filterMap_filter]
    refine (List.Perm.refl _).trans (.of_eq (List.filterMap_congr fun a ha => ?_))
    cases hf : f a with
    | none => split_ifs <;> rfl
    | some b => rw [if_pos (h a ha (by rw [hf]; rfl))]

/-- **What a shape says of the names that a type expression mentions.** The sites of the expression
are listed once for each way to them, so in a tree once each. -/
structure Covers (t : Tree) (i : Slot) : Prop where
  /-- The list is complete. -/
  mem_sites : ∀ n, maxSteps ≤ n → ∀ s, s ∈ t.sites n { slot := i } ↔ t.Leads { slot := i } s
  /-- The references are the names of the sites that are read. -/
  values : ∀ n, maxSteps ≤ n →
    ((TypeShape.ofNode? t i).toList.flatMap references).map TypeWord.value =
      ((t.sites n { slot := i }).filter (·.isRead)).filterMap t.mention?
  /-- These are all names, each as often as it is mentioned, exactly if every site that mentions one
  is read. -/
  perm_iff : ∀ n, maxSteps ≤ n →
    ((((TypeShape.ofNode? t i).toList.flatMap references).map TypeWord.value).Perm
        ((t.sites n { slot := i }).filterMap t.mention?) ↔
      ∀ s, t.Leads { slot := i } s → (t.mention? s).isSome = true → s.isRead = true)
  /-- There is a shape, if whatever is in arrays, parentheses and look-ups is a type. -/
  isSome : t.HasTypes { slot := i } → (TypeShape.ofNode? t i).isSome = true

/-- **A shape leaves a name out** exactly if an index of a look-up mentions it, or the constraint or
default of a type parameter. -/
theorem covers_ofNode? (h : t.IsWhole { slot := i }) : t.Covers i where
  mem_sites n hn s := mem_sites ((ends_maxSteps h.level).mono hn)
  values n hn := values_ofNode? h hn
  perm_iff n hn := by
    rw [values_ofNode? h hn, perm_filterMap_filter_iff]
    simp only [mem_sites ((ends_maxSteps h.level).mono hn)]
  isSome ht := isSome_ofNode? h ht

/-- A look-up in a map, beside a list. -/
def lookup : Tree where
  file := "t.avt"
  source := "Map[K] | List<A>"
  nodes := #[⟨.identifier "Map", ⟨0, 3⟩, none⟩, ⟨.typeReference (some 0) [], ⟨0, 3⟩, none⟩,
    ⟨.identifier "K", ⟨4, 5⟩, none⟩, ⟨.typeReference (some 2) [], ⟨4, 5⟩, none⟩,
    ⟨.indexedAccess (some 1) (some 3), ⟨0, 6⟩, none⟩, ⟨.identifier "List", ⟨9, 13⟩, none⟩,
    ⟨.identifier "A", ⟨14, 15⟩, none⟩, ⟨.typeReference (some 6) [], ⟨14, 15⟩, none⟩,
    ⟨.typeReference (some 5) [some 7], ⟨9, 16⟩, none⟩,
    ⟨.combination .union [some 4, some 8], ⟨0, 16⟩, none⟩]

theorem isWhole_of_sites (hends : t.Ends n s) (hlevel : ∀ k ∈ t.sites n s, k.level ≤ maxDepth)
    (hnamed : ∀ k ∈ t.sites n s, ∀ name ∈ t.reference? k, (t.span? name).isSome = true) :
    t.IsWhole s :=
  ⟨fun k hk => hlevel k ((mem_sites hends).mpr hk),
    fun k hk name hname => hnamed k ((mem_sites hends).mpr hk) name hname⟩

/-- All names of the list are in its shape. -/
theorem covers_lookup : lookup.IsWhole { slot := some 8 } ∧ lookup.HasTypes { slot := some 8 } ∧
    (∃ shape, TypeShape.ofNode? lookup (some 8) = some shape ∧
      shape.references.map TypeWord.value = ["List", "A"]) := by
  have hends : lookup.Ends 3 { slot := some 8 } := by decide +kernel
  have hwhole : lookup.IsWhole { slot := some 8 } :=
    isWhole_of_sites hends (by decide +kernel) (by decide +kernel)
  have htypes : lookup.HasTypes { slot := some 8 } := by
    refine ⟨⟨_, rfl, rfl⟩, fun k hk form hform j hj => ?_⟩
    have hnone : ∀ k ∈ lookup.sites 3 { slot := some 8 },
        (lookup.form? k.slot).bind Form.operand? = none := by decide +kernel
    have hk := hnone k ((mem_sites hends).mpr hk)
    rw [hform, Option.bind_some, hj] at hk
    cases hk
  have hcovers := covers_ofNode? hwhole
  obtain ⟨shape, hs⟩ := Option.isSome_iff_exists.mp (hcovers.isSome htypes)
  have hvalues := hcovers.values maxSteps (Nat.le_refl _)
  rw [hs, Option.toList_some, List.flatMap_singleton] at hvalues
  exact ⟨hwhole, htypes, shape, hs, hvalues.trans (by decide +kernel)⟩

/-- The index of a look-up is not in its shape. -/
theorem not_perm_lookup : lookup.IsWhole { slot := some 4 } ∧
    (TypeShape.ofNode? lookup (some 4)).map (fun shape => shape.references.map TypeWord.value) =
      some ["Map"] ∧
    (lookup.sites maxSteps { slot := some 4 }).filterMap lookup.mention? = ["Map", "K"] :=
  ⟨isWhole_of_sites (n := 2) (by decide +kernel) (by decide +kernel) (by decide +kernel),
    by decide +kernel, by decide +kernel⟩

end Tree

end Bindery
