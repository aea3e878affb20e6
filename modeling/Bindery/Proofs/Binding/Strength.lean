import Bindery.Proofs.Binding.Bound
import Bindery.Proofs.Binding.Classification

/-!
# Where the strength of a dependency comes from

The strength of a dependency is that of the first reference to look its name up. A strong reference
that comes later does not make it strong.

* `Context.Demands`, `Context.Demotes`: a strong reference looks a name up; a weak one came before.
* `Context.Weighs`: a dependency of a name, and how strong it is.
* `Context.not_demotes_append`: strong references that come before all others are never too late.
* **`Context.weighs_bind`**: the dependencies of every bound symbol.
-/

namespace Bindery

namespace Reference

theorem find?_of_mem_firsts {rs : List Reference} {r : Reference} (h : r ∈ firsts rs) :
    rs.find? (fun t => t.name = r.name) = some r := by
  induction rs using List.reverseRecOn with
  | nil => cases h
  | append_singleton rs t ih =>
    rw [firsts_append, addFirst] at h
    rw [List.find?_append]
    split_ifs at h with ht
    · rw [ih h]
      rfl
    · rcases List.mem_append.mp h with h | h
      · rw [ih h]
        rfl
      · obtain rfl := List.mem_singleton.mp h
        have hnone : rs.find? (fun t => t.name = r.name) = none := by
          rw [List.find?_eq_none]
          intro t' ht' hn
          exact ht (mem_map_name_firsts.mpr (List.mem_map.mpr ⟨t', ht', by simpa using hn⟩))
        rw [hnone, Option.none_or, List.find?_cons_of_pos (by simp)]

end Reference

namespace Context

variable (cx : Context) (s : Symbol) (rs rs' : List Reference) (n : String)

/-- A strong reference looks `n` up. -/
def Demands : Prop := ∃ t ∈ cx.opened s rs, t.name = n ∧ t.strong = true

/-- **Weak first, strong later**: the reference that looks `n` up first is weak, and a strong one
follows. -/
def Demotes : Prop :=
  ∃ before r after, cx.opened s rs = before ++ r :: after ∧ (∀ t ∈ before, t.name ≠ n) ∧
    r.name = n ∧ r.strong = false ∧ ∃ t ∈ after, t.name = n ∧ t.strong = true

/-- `e` is the dependency of the name `n`. It is strong if a strong reference looks the name up and
no weak one did so before. -/
structure Weighs (e : Dependency) : Prop where
  leads : cx.scope.lead? n = some (e.target, e.origin)
  strong_iff : e.strong = true ↔ cx.Demands s rs n ∧ ¬cx.Demotes s rs n

variable {cx s rs rs' n}

theorem demotes_iff : cx.Demotes s rs n ↔
    cx.Demands s rs n ∧ ∃ r, (cx.opened s rs).find? (·.name = n) = some r ∧ r.strong = false := by
  constructor
  · rintro ⟨before, r, after, he, hb, hr, hw, t, ht, htn⟩
    refine ⟨⟨t, ?_, htn⟩, r, ?_, hw⟩
    · rw [he]
      exact List.mem_append_right _ (List.mem_cons_of_mem _ ht)
    · exact List.find?_eq_some_iff_append.mpr
        ⟨by simpa using hr, before, after, he, by simpa using hb⟩
  · rintro ⟨⟨t, ht, hn, hs⟩, r, hr, hw⟩
    obtain ⟨hrn, before, after, he, hb⟩ := List.find?_eq_some_iff_append.mp hr
    have hb : ∀ t ∈ before, t.name ≠ n := by simpa using hb
    refine ⟨before, r, after, he, hb, by simpa using hrn, hw, t, ?_, hn, hs⟩
    rw [he, List.mem_append, List.mem_cons] at ht
    rcases ht with ht | rfl | ht
    · exact absurd hn (hb t ht)
    · rw [hw] at hs
      cases hs
    · exact ht

theorem strong_of_find?_iff {r : Reference} (hr : (cx.opened s rs).find? (·.name = n) = some r) :
    r.strong = true ↔ cx.Demands s rs n ∧ ¬cx.Demotes s rs n := by
  have hmem := List.mem_of_find?_eq_some hr
  have hname : r.name = n := by simpa using List.find?_some hr
  rw [demotes_iff, not_and]
  constructor
  · intro hs
    refine ⟨⟨r, hmem, hname, hs⟩, ?_⟩
    rintro - ⟨r', hr', hw⟩
    rw [hr, Option.some.injEq] at hr'
    rw [← hr', hs] at hw
    cases hw
  · rintro ⟨hd, hn⟩
    by_contra hw
    exact hn hd ⟨r, hr, by simpa using hw⟩

/-- **Strong references that come before all others** are never too late. -/
theorem not_demotes_append (hs : ∀ r ∈ rs, r.strong = true)
    (hn : ∃ t ∈ cx.opened s rs, t.name = n) : ¬cx.Demotes s (rs ++ rs') n := by
  rw [demotes_iff]
  rintro ⟨-, r, hr, hw⟩
  obtain ⟨t, ht⟩ : ∃ t, (cx.opened s rs).find? (·.name = n) = some t :=
    Option.isSome_iff_exists.mp (List.find?_isSome.mpr (by simpa using hn))
  rw [opened, tracked, List.filterMap_append, List.filter_append, List.find?_append,
    show (List.filter _ (List.filterMap _ rs)).find? _ = some t from ht, Option.some_or,
    Option.some.injEq] at hr
  rw [← hr, strong_of_mem_opened hs (List.mem_of_find?_eq_some ht)] at hw
  cases hw

/-! ## Bound symbols -/

theorem isSome_edge?_iff {t : Reference} : (cx.edge? s t).isSome = true ↔
    ∃ target origin, cx.scope.lead? t.name = some (target, origin) ∧ target ≠ s.qualified := by
  rw [edge?, ← Scope.lead?_eq]
  cases cx.scope.lead? t.name with
  | none => simp
  | some lead =>
    obtain ⟨target, origin⟩ := lead
    simp

theorem weighs_of_mem_met {t : Reference} (ht : t ∈ cx.met s rs) {e : Dependency}
    (he : cx.edge? s t = some e) : cx.Weighs s rs t.name e := by
  obtain ⟨⟨target, origin⟩, hlead, he⟩ := Option.bind_eq_some_iff.mp he
  split_ifs at he
  cases he
  exact ⟨(Scope.lead?_eq _ _).trans hlead,
    strong_of_find?_iff (Reference.find?_of_mem_firsts ht)⟩

theorem IsBoundAs.weighs {b : Bound} (h : cx.IsBoundAs (s, rs) b) :
    ∃ names : List String, names.Nodup ∧
      (∀ n, n ∈ names ↔ (∃ t ∈ cx.opened s rs, t.name = n) ∧
        ∃ target origin, cx.scope.lead? n = some (target, origin) ∧ target ≠ s.qualified) ∧
      List.Forall₂ (cx.Weighs s rs) names b.symbol.edges := by
  refine ⟨((cx.met s rs).filter fun t => (cx.edge? s t).isSome).map Reference.name, ?nodup,
    fun n => ?names, ?weighs⟩
  case nodup => exact (nodup_map_name_met cx s rs).sublist (List.filter_sublist.map _)
  case names =>
    rw [List.mem_map]
    constructor
    · rintro ⟨t, ht, rfl⟩
      obtain ⟨ht, he⟩ := List.mem_filter.mp ht
      exact ⟨⟨t, Reference.firsts_subset _ ht, rfl⟩, isSome_edge?_iff.mp he⟩
    · rintro ⟨hopen, hlead⟩
      obtain ⟨t, ht, rfl⟩ := List.mem_map.mp
        (Reference.mem_map_name_firsts.mpr (List.mem_map.mpr hopen))
      exact ⟨t, List.mem_filter.mpr ⟨ht, isSome_edge?_iff.mpr hlead⟩, rfl⟩
  case weighs =>
    rw [show b.symbol.edges = _ from h.edges, List.forall₂_map_left_iff, ← List.filterMap_eq_filter]
    have hmet : List.Forall₂ (fun t t' => t = t' ∧ t ∈ cx.met s rs) (cx.met s rs) (cx.met s rs) :=
      List.forall₂_same.mpr fun t ht => ⟨rfl, ht⟩
    refine List.rel_filterMap ?_ hmet
    rintro t _ ⟨rfl, ht⟩
    rw [Option.guard]
    cases he : cx.edge? s t with
    | none => exact .none
    | some e => exact .some (weighs_of_mem_met ht he)

/-- **Where the strength of every dependency comes from.** What the clauses of a class refer to is
never looked up too late. -/
theorem weighs_bind (cx : Context) (statement : Slot) :
    List.Forall₂ (fun d b => ∃ names : List String, names.Nodup ∧
        (∀ n, n ∈ names ↔ (∃ t ∈ cx.opened d.1 d.2, t.name = n) ∧
          ∃ target origin, cx.scope.lead? n = some (target, origin) ∧ target ≠ d.1.qualified) ∧
        List.Forall₂ (cx.Weighs d.1 d.2) names b.symbol.edges)
      (cx.declarations statement) (cx.bind statement).1 ∧
    ∀ kind parts, cx.tree.form? statement = some (.classLike kind parts) →
      ∀ d ∈ cx.declarations statement, ∀ t ∈ cx.opened d.1
        (cx.heritageReferences (cx.parameterNames parts.typeParameters) parts.heritage),
        ¬cx.Demotes d.1 d.2 t.name := by
  refine ⟨(cx.forall₂_bind statement).imp fun d b h => h.weighs, fun kind parts hform d hd t ht => ?_⟩
  obtain ⟨i, hi⟩ : ∃ i, d ∈ (cx.declareClass kind i parts).toList := by
    unfold declarations at hd
    rw [hform] at hd
    cases statement with
    | none => cases hd
    | some i => exact ⟨i, hd⟩
  obtain ⟨s, -, rfl⟩ := Option.map_eq_some_iff.mp (Option.mem_toList.mp hi)
  exact not_demotes_append strong_heritageReferences ⟨t, ht, rfl⟩

/-! ## A weak reference before a strong one -/

/-- The source text `class C { x: B; static y: B }` with its nodes. -/
def plainThenStatic : Tree :=
  Tree.link
    { file := "c.avt"
      source := "class C { x: B; static y: B }"
      nodes := #[⟨.identifier "C", ⟨6, 7⟩, none⟩, ⟨.identifier "x", ⟨10, 11⟩, none⟩,
        ⟨.identifier "B", ⟨13, 14⟩, none⟩, ⟨.typeReference (some 2) [], ⟨13, 14⟩, none⟩,
        ⟨.field .property {} { name := some 1, annotation := some 3 }, ⟨10, 14⟩, none⟩,
        ⟨.modifier .static, ⟨16, 22⟩, none⟩, ⟨.identifier "y", ⟨23, 24⟩, none⟩,
        ⟨.identifier "B", ⟨26, 27⟩, none⟩, ⟨.typeReference (some 7) [], ⟨26, 27⟩, none⟩,
        ⟨.field .property { modifiers := [some 5] } { name := some 6, annotation := some 8 },
          ⟨16, 27⟩, none⟩,
        ⟨.classLike .classDeclaration { name := some 0, members := [some 4, some 9] }, ⟨0, 29⟩,
          none⟩,
        ⟨.sourceFile [some 10], ⟨0, 29⟩, none⟩] } 11

/-- A unit that imports `B`. -/
def importingContext : Context where
  tree := plainThenStatic
  scope := Scope.addImport { uri := "c.avt", path := [], builtins := .only [] } "B" "B" "b.avt"
  store := {}
  options := {}

/-- The type of the static property is needed when the class is defined, but the dependency on it is
weak: the other property has the same type and stands first. -/
theorem demotes_plainThenStatic : ∃ s rs b,
    importingContext.declarations (some 10) = [(s, rs)] ∧
    (importingContext.bind (some 10)).1 = [b] ∧ importingContext.Demands s rs "B" ∧
    importingContext.scope.lead? "B" = some ("B", .otherUnit "b.avt") ∧
    b.symbol.edges = [⟨"B", .otherUnit "b.avt", false⟩] := by
  obtain ⟨hd, hb⟩ :
      (importingContext.declarations (some 10)).map (fun d =>
          (importingContext.opened d.1 d.2).map fun t => (t.name, t.strong)) =
        [[("B", false), ("B", true)]] ∧
      (importingContext.bind (some 10)).1.map (fun b => b.symbol.edges) =
        [[⟨"B", .otherUnit "b.avt", false⟩]] := by
    decide +kernel
  obtain ⟨⟨s, rs⟩, hd, ht⟩ := List.map_eq_singleton_iff.mp hd
  obtain ⟨b, hb, he⟩ := List.map_eq_singleton_iff.mp hb
  refine ⟨s, rs, b, hd, hb, ?_, by decide +kernel, he⟩
  have hm : ("B", true) ∈ (importingContext.opened s rs).map fun t => (t.name, t.strong) := by
    rw [ht]
    decide
  obtain ⟨t, ht, htn⟩ := List.mem_map.mp hm
  rw [Prod.mk.injEq] at htn
  exact ⟨t, ht, htn⟩

end Context

end Bindery
