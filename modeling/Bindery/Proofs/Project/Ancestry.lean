import Mathlib.Data.List.Chain
import Bindery.Project.Query
import Bindery.Proofs.Project.BaseOrder
import Bindery.Proofs.Project.Issued

/-!
# Classes and their ancestors

* **`Project.parentClass?_eq_some_iff`**: the parent of a class is the one it is linked to, if that
  is there, and else whoever goes by the name of its base.
* `Project.IsAncestry`: a chain of parents that goes on as far as it may.
* **`Project.isAncestry_ancestry`**, `Project.IsAncestry.unique`: the ancestry of a class is the
  only such chain.
* `Project.hasStatic_iff`, `Project.convertibleName?_eq_some_iff`: what a class has or inherits.
* **`History.inherits_run`**: all of this, and links that do not lead astray, after every run.
-/

namespace Bindery

namespace Project

variable {p : Project} {id parent : SymbolId}

/-! ## The parent -/

theorem isOtherClass_iff : p.isOtherClass id parent = true ↔
    parent ≠ id ∧ ∃ x, p.symbol? parent = some x ∧ x.isClassOrInterface = true := by
  rw [isOtherClass, Bool.and_eq_true, decide_eq_true_iff, Store.isClassOrInterface, symbol?,
    Option.any_eq_true]

/-- **The parent of a class** is the one it is linked to, if that is there and another class. If
not, it is whoever goes by the name of the base now. -/
theorem parentClass?_eq_some_iff : p.parentClass? id = some parent ↔
    p.isOtherClass id parent = true ∧ ∃ x c, p.symbol? id = some x ∧ x.classInfo = some c ∧
      (c.parent = some parent ∨
        (∀ q, c.parent = some q → p.isOtherClass id q = false) ∧ ∃ base, c.base = some base ∧
          p.store.names.byQualifiedName? base (some x.qualified) = some parent) := by
  simp only [parentClass?, Option.bind_eq_bind, Option.bind_eq_some_iff, Option.or_eq_some_iff,
    Option.filter_eq_some_iff, Option.filter_eq_none_iff, Option.ite_none_right_eq_some,
    Option.some.injEq]
  constructor
  · rintro ⟨x, hx, c, hc, ⟨hq, ho⟩ | ⟨hn, base, hb, q, hq, ho, rfl⟩⟩
    · exact ⟨ho, x, c, hx, hc, .inl hq⟩
    · exact ⟨ho, x, c, hx, hc, .inr ⟨fun k hk => by simpa using hn k hk, base, hb, hq⟩⟩
  · rintro ⟨ho, x, c, hx, hc, hq | ⟨hn, base, hb, hq⟩⟩
    · exact ⟨x, hx, c, hc, .inl ⟨hq, ho⟩⟩
    · exact ⟨x, hx, c, hc, .inr ⟨fun k hk => by simpa using hn k hk, base, hb, parent, hq, ho, rfl⟩⟩

theorem qualified_of_byQualifiedName? (h : p.store.Lists p.roll) {base qualified : String}
    (hb : p.store.names.byQualifiedName? base (some qualified) = some parent) :
    ∃ y, p.symbol? parent = some y ∧
      (y.qualified = base ∨ y.qualified = NameTable.rootSegment qualified ++ "." ++ base) := by
  rcases Option.or_eq_some_iff.mp hb with hb | ⟨-, hb⟩
  · obtain ⟨y, hy, hq⟩ := h.qualified _ _ hb
    exact ⟨y, hy, .inl hq⟩
  · obtain ⟨y, hy, hq⟩ := h.qualified _ _ hb
    exact ⟨y, hy, .inr hq⟩

/-! ## Ancestors -/

/-- **A chain of classes from `id`**, each the parent of the one before, that goes on until there is
no parent, the parent is in the chain, or the chain is as long as it may be. -/
structure IsAncestry (p : Project) (id : SymbolId) (chain : List SymbolId) : Prop where
  head : chain.head? = some id
  nodup : chain.Nodup
  parents : chain.IsChain fun a b => p.parentClass? a = some b
  length : chain.length ≤ maxInheritance
  stops : ∀ last, chain.getLast? = some last → p.parentClass? last = none ∨
    (∃ parent ∈ chain, p.parentClass? last = some parent) ∨ chain.length = maxInheritance

theorem nodup_ancestors (room : Nat) (met : List SymbolId) (id : SymbolId) :
    (p.ancestors room met id).Nodup ∧ ∀ q ∈ p.ancestors room met id, q ∉ met := by
  fun_induction ancestors p room met id with
  | case1 => simp
  | case2 => simp
  | case3 => simp
  | case4 met room id parent _ hn ih =>
    refine ⟨List.nodup_cons.mpr ⟨fun hp => ih.2 parent hp (.head _), ih.1⟩, fun q hq => ?_⟩
    rcases List.mem_cons.mp hq with rfl | hq
    · exact hn
    · exact fun hm => ih.2 q hq (.tail _ hm)

theorem isChain_ancestors (room : Nat) (met : List SymbolId) (id : SymbolId) :
    (id :: p.ancestors room met id).IsChain fun a b => p.parentClass? a = some b := by
  fun_induction ancestors p room met id with
  | case1 => exact .singleton _
  | case2 => exact .singleton _
  | case3 => exact .singleton _
  | case4 met room id parent hp _ ih => exact .cons_cons hp ih

theorem stops_ancestors (room : Nat) (met : List SymbolId) (id : SymbolId) {last : SymbolId}
    (hl : (id :: p.ancestors room met id).getLast? = some last) : p.parentClass? last = none ∨
      (∃ parent ∈ met ++ p.ancestors room met id, p.parentClass? last = some parent) ∨
      (p.ancestors room met id).length = room := by
  fun_induction ancestors p room met id with
  | case1 => exact .inr (.inr rfl)
  | case2 met room id hp =>
    cases hl
    exact .inl hp
  | case3 met room id parent hp hm =>
    cases hl
    exact .inr (.inl ⟨parent, List.mem_append_left _ hm, hp⟩)
  | case4 met room id parent _ _ ih =>
    rw [List.getLast?_cons_cons] at hl
    rcases ih hl with hnone | ⟨q, hq, hlast⟩ | hlen
    · exact .inl hnone
    · refine .inr (.inl ⟨q, ?_, hlast⟩)
      rw [List.mem_append, List.mem_cons] at hq ⊢
      tauto
    · exact .inr (.inr (congrArg (· + 1) hlen))

theorem isAncestry_ancestry (p : Project) (id : SymbolId) : p.IsAncestry id (p.ancestry id) where
  head := rfl
  nodup := by
    obtain ⟨hn, hm⟩ := p.nodup_ancestors (maxInheritance - 1) [id] id
    exact List.nodup_cons.mpr ⟨fun hid => hm id hid (.head _), hn⟩
  parents := isChain_ancestors _ _ _
  length := p.length_ancestry_le id
  stops last hl := by
    rcases stops_ancestors _ _ _ hl with hnone | hmet | hlen
    · exact .inl hnone
    · exact .inr (.inl hmet)
    · exact .inr (.inr (congrArg (· + 1) hlen))

theorem prefix_or_prefix {xs ys : List SymbolId}
    (hx : (id :: xs).IsChain fun a b => p.parentClass? a = some b)
    (hy : (id :: ys).IsChain fun a b => p.parentClass? a = some b) : xs <+: ys ∨ ys <+: xs := by
  induction xs generalizing id ys with
  | nil => exact .inl List.nil_prefix
  | cons x xs ih =>
    cases ys with
    | nil => exact .inr List.nil_prefix
    | cons y ys =>
      obtain ⟨hix, hx⟩ := List.isChain_cons_cons.mp hx
      obtain ⟨hiy, hy⟩ := List.isChain_cons_cons.mp hy
      obtain rfl : x = y := Option.some.inj (hix.symm.trans hiy)
      exact (ih hx hy).imp (List.cons_prefix_cons.mpr ⟨rfl, ·⟩) (List.cons_prefix_cons.mpr ⟨rfl, ·⟩)

theorem IsAncestry.eq_of_prefix {xs ys : List SymbolId} (hx : p.IsAncestry id xs)
    (hy : p.IsAncestry id ys) (h : xs <+: ys) : xs = ys := by
  obtain ⟨rest, rfl⟩ := h
  cases rest with
  | nil => rw [List.append_nil]
  | cons next rest =>
    exfalso
    obtain ⟨last, hlast⟩ : ∃ last, xs.getLast? = some last := by
      rw [← Option.isSome_iff_exists, List.getLast?_isSome]
      rintro rfl
      cases hx.head
    have hnext : p.parentClass? last = some next :=
      (List.isChain_append.mp hy.parents).2.2 last hlast next rfl
    rcases hx.stops last hlast with hnone | ⟨parent, hmem, hparent⟩ | hlen
    · rw [hnext] at hnone
      cases hnone
    · cases hnext.symm.trans hparent
      exact List.disjoint_of_nodup_append hy.nodup hmem (.head _)
    · have := hy.length
      rw [List.length_append, List.length_cons] at this
      omega

/-- **There is one chain of parents** that goes on as far as it may. -/
theorem IsAncestry.unique {xs ys : List SymbolId} (hx : p.IsAncestry id xs)
    (hy : p.IsAncestry id ys) : xs = ys := by
  cases xs with
  | nil => cases hx.head
  | cons x xs =>
    cases ys with
    | nil => cases hy.head
    | cons y ys =>
      cases hx.head
      cases hy.head
      rcases prefix_or_prefix hx.parents hy.parents with hp | hp
      · exact hx.eq_of_prefix hy (List.cons_prefix_cons.mpr ⟨rfl, hp⟩)
      · exact (hy.eq_of_prefix hx (List.cons_prefix_cons.mpr ⟨rfl, hp⟩)).symm

/-! ## What is inherited -/

/-- The data of a class, if it is there. -/
def classInfo? (p : Project) (id : SymbolId) : Option ClassInfo :=
  (p.symbol? id).bind Symbol.classInfo

theorem hasStatic_iff {name : String} : p.hasStatic id name = true ↔
    ∃ q ∈ p.ancestry id, ∃ c, p.classInfo? q = some c ∧ name ∈ c.staticProperties.keys := by
  simp only [hasStatic, ancestryInfo, List.any_eq_true, List.mem_filterMap, ClassInfo.hasOwnStatic,
    Table.contains_iff]
  constructor
  · rintro ⟨c, ⟨q, hq, hc⟩, hs⟩
    exact ⟨q, hq, c, hc, hs⟩
  · rintro ⟨q, hq, c, hc, hs⟩
    exact ⟨c, ⟨q, hq, hc⟩, hs⟩

/-- The name comes from the nearest class that has one. -/
theorem convertibleName?_eq_some_iff {name : String} : p.convertibleName? id = some name ↔
    ∃ nearer q further, p.ancestry id = nearer ++ q :: further ∧
      (p.classInfo? q).bind ClassInfo.convertible = some name ∧
      ∀ k ∈ nearer, (p.classInfo? k).bind ClassInfo.convertible = none := by
  rw [convertibleName?, ancestryInfo, ← List.head?_filterMap, List.filterMap_filterMap,
    List.head?_filterMap, List.findSome?_eq_some_iff]
  rfl

/-- **What is asked of a class.** -/
structure Inherits (p : Project) (id : SymbolId) : Prop where
  /-- The parent is the one the class is linked to, if that is there and another class. If not, it
  is the class that goes by the name of the base now. -/
  parent_iff : ∀ parent, p.parentClass? id = some parent ↔
    p.isOtherClass id parent = true ∧ ∃ x c, p.symbol? id = some x ∧ x.classInfo = some c ∧
      (c.parent = some parent ∨
        (∀ q, c.parent = some q → p.isOtherClass id q = false) ∧ ∃ base, c.base = some base ∧
          p.store.names.byQualifiedName? base (some x.qualified) = some parent)
  /-- It is there, and another class or interface. -/
  parent_live : ∀ parent, p.parentClass? id = some parent →
    parent ≠ id ∧ ∃ y, p.symbol? parent = some y ∧ y.isClassOrInterface = true
  /-- Whoever goes by a name bears it. -/
  named : ∀ base qualified parent,
    p.store.names.byQualifiedName? base (some qualified) = some parent →
      ∃ y, p.symbol? parent = some y ∧
        (y.qualified = base ∨ y.qualified = NameTable.rootSegment qualified ++ "." ++ base)
  /-- The parents are followed one after the other, as far as this goes. -/
  ancestry : p.IsAncestry id (p.ancestry id)
  ancestry_unique : ∀ chain, p.IsAncestry id chain → chain = p.ancestry id
  /-- A class has the static properties that it declares itself, and those of its ancestors. -/
  hasStatic_iff : ∀ name, p.hasStatic id name = true ↔
    ∃ q ∈ p.ancestry id, ∃ c, p.classInfo? q = some c ∧ name ∈ c.staticProperties.keys
  /-- The name under which a class can be converted is that of the nearest class that has one. -/
  convertibleName?_iff : ∀ name, p.convertibleName? id = some name ↔
    ∃ nearer q further, p.ancestry id = nearer ++ q :: further ∧
      (p.classInfo? q).bind ClassInfo.convertible = some name ∧
      ∀ k ∈ nearer, (p.classInfo? k).bind ClassInfo.convertible = none

theorem inherits (h : p.store.Lists p.roll) (id : SymbolId) : p.Inherits id where
  parent_iff _ := parentClass?_eq_some_iff
  parent_live _ hp := isOtherClass_iff.mp (isOtherClass_of_parentClass? p hp)
  named _ _ _ hb := qualified_of_byQualifiedName? h hb
  ancestry := p.isAncestry_ancestry id
  ancestry_unique _ hc := hc.unique (p.isAncestry_ancestry id)
  hasStatic_iff _ := hasStatic_iff
  convertibleName?_iff _ := convertibleName?_eq_some_iff

end Project

namespace History

/-- **Links do not lead astray**: after `before ++ after`, the id of the parent that a class was
linked to after `before` finds the declaration that it found then, or nothing. -/
def IsLinked (options : Options) (before after : List Action) : Prop :=
  ∀ id c q, (run options before).project.classInfo? id = some c → c.parent = some q →
    ∀ y, (run options (before ++ after)).project.symbol? q = some y →
      ∃ z, (run options before).project.symbol? q = some z ∧ z.bare = y.bare

/-- **What a class inherits after any actions.** As long as no cell is used so often that its
generations repeat, a link to a parent that has gone finds nobody else. -/
theorem inherits_run (options : Options) (actions : List Action) :
    (∀ id, (run options actions).project.Inherits id) ∧
      ∀ before after, actions = before ++ after → (run options actions).NeverRepeats →
        IsLinked options before after := by
  refine ⟨Project.inherits (lists_run options actions), ?_⟩
  rintro before after rfl hf id c q hid hq y hy
  obtain ⟨x, hx, hc⟩ := Option.bind_eq_some_iff.mp hid
  exact bare_of_symbol?_run hf ((knows_run options before).parent id x hx c hc q hq) hy

/-- A class with a static property, which can be converted under a name. -/
def rootTree : Tree :=
  Tree.link
    { file := "v.avt"
      source := "@Convertible(\"b\") class Base { static s: number }"
      nodes := #[⟨.identifier "Convertible", ⟨1, 12⟩, none⟩, ⟨.literal .string, ⟨13, 16⟩, none⟩,
        ⟨.call .plain (some 0) [] [some 1], ⟨1, 17⟩, none⟩,
        ⟨.wrapper .decorator (some 2), ⟨0, 17⟩, none⟩, ⟨.identifier "Base", ⟨24, 28⟩, none⟩,
        ⟨.modifier .static, ⟨31, 37⟩, none⟩, ⟨.identifier "s", ⟨38, 39⟩, none⟩,
        ⟨.keywordType .number, ⟨41, 47⟩, none⟩,
        ⟨.field .property { modifiers := [some 5] } { name := some 6, annotation := some 7 },
          ⟨31, 47⟩, none⟩,
        ⟨.classLike .classDeclaration
          { header := { decorators := [some 3] }, name := some 4, members := [some 8] },
          ⟨0, 49⟩, none⟩,
        ⟨.sourceFile [some 9], ⟨0, 49⟩, none⟩] } 10

/-- A class is bound after its base, and then the base again. -/
def baseRebound : List Action :=
  [.bind rootTree { uri := "v.avt", path := ["app"] },
    .bind derivedTree
      ((({ uri := "u.avt", path := ["app"] } : Scope)).addImport "Base" "app.Base" "v.avt"),
    .bind rootTree { uri := "v.avt", path := ["app"] }]

/-- The class is linked to the base that has gone, and its parent is the new one, from which it has
a static property and a name. -/
theorem inherits_run_baseRebound :
    (run {} baseRebound).NeverRepeats ∧
      ((run {} baseRebound).project.classInfo? ⟨1, 0⟩).bind ClassInfo.parent = some ⟨0, 0⟩ ∧
      (run {} baseRebound).project.symbol? ⟨0, 0⟩ = none ∧
      (run {} baseRebound).project.parentClass? ⟨1, 0⟩ = some ⟨0, 1⟩ ∧
      (run {} baseRebound).project.ancestry ⟨1, 0⟩ = [⟨1, 0⟩, ⟨0, 1⟩] ∧
      (run {} baseRebound).project.hasStatic ⟨1, 0⟩ "s" = true ∧
      (run {} baseRebound).project.convertibleName? ⟨1, 0⟩ = some "b" := by
  obtain ⟨hids, hlink, hgone, hparent, hlast, hown, hbase⟩ :
      (run {} baseRebound).issued = [⟨0, 0⟩, ⟨1, 0⟩, ⟨0, 1⟩] ∧
        ((run {} baseRebound).project.classInfo? ⟨1, 0⟩).bind ClassInfo.parent = some ⟨0, 0⟩ ∧
        ((run {} baseRebound).project.symbol? ⟨0, 0⟩).isSome = false ∧
        (run {} baseRebound).project.parentClass? ⟨1, 0⟩ = some ⟨0, 1⟩ ∧
        (run {} baseRebound).project.parentClass? ⟨0, 1⟩ = none ∧
        ((run {} baseRebound).project.classInfo? ⟨1, 0⟩).bind ClassInfo.convertible = none ∧
        ((run {} baseRebound).project.classInfo? ⟨0, 1⟩).map (fun c =>
          (c.staticProperties.keys, c.convertible)) = some (["s"], some "b") := by
    rw [run_eq rfl]
    decide +kernel
  have hinherits := (inherits_run {} baseRebound).1 ⟨1, 0⟩
  have hancestry : (run {} baseRebound).project.ancestry ⟨1, 0⟩ = [⟨1, 0⟩, ⟨0, 1⟩] := by
    refine (hinherits.ancestry_unique _ ⟨rfl, by decide, ?_, by decide, fun last hl => ?_⟩).symm
    · exact .cons_cons hparent (.singleton _)
    · cases hl
      exact .inl hlast
  obtain ⟨c, hc, hdata⟩ := Option.map_eq_some_iff.mp hbase
  rw [Prod.mk.injEq] at hdata
  refine ⟨fun i => ?_, hlink, Option.isNone_iff_eq_none.mp (by simpa using hgone), hparent,
    hancestry, ?static, ?convertible⟩
  · rw [hids]
    exact Nat.lt_of_le_of_lt (List.length_filter_le _ _) (by decide)
  case static =>
    refine (hinherits.hasStatic_iff "s").mpr ⟨⟨0, 1⟩, ?_, c, hc, ?_⟩
    · rw [hancestry]
      decide
    · rw [hdata.1]
      decide
  case convertible =>
    refine (hinherits.convertibleName?_iff "b").mpr ⟨[⟨1, 0⟩], ⟨0, 1⟩, [], hancestry, ?_, ?_⟩
    · rw [hc, Option.bind_some, hdata.2]
    · rw [List.forall_mem_singleton]
      exact hown

end History

end Bindery
