import Bindery.Proofs.Binding.Alongside
import Bindery.Proofs.Project.Declares
import Bindery.Proofs.Project.Standing

/-!
# The order of the statements of a unit

The short names of a unit are declared before any of its symbols is built, so that a name is read
alike whether its declaration comes earlier or later. There is one exception: a member access that
spells the full name of a declaration is looked up among the symbols that are known, and of its own
unit these are the declarations of earlier statements.

* `Tree.IsUnit`: the tree of a unit.
* `Tree.namesBefore`, `Tree.SpellsAlike`, `Tree.Steady`: what has been declared before a statement,
  and where that makes no difference.
* **`Project.publicName_contextAfter`**: the short names that are known when a statement is bound.
* **`Project.readsMore_reorder`**, `Project.exists_of_mem_bind_reorder`: a declaration in another
  order of the statements.
* `Project.Declared.exportedName?`: what a unit answers to the imports of others.
* **`Project.alike_bind_reorder`**: a unit with its statements in another order.
-/

namespace Bindery

namespace Tree

/-- **The tree of a unit**: declarations under names of their own, and the root is no part of them. -/
structure IsUnit (t : Tree) : Prop where
  names : (t.statements.flatMap t.declaredNames).Nodup
  root : ∀ r, t.root = some r → ∀ c ∈ t.children (some r),
    ¬Reaches (fun k => t.children (some k)) c r

/-- The short names of the symbols that come before a statement. -/
def namesBefore (t : Tree) (statement : Slot) : List String :=
  (t.statements.takeWhile (· ≠ statement)).flatMap t.boundNames

/-- **Below a node it makes no difference which of two lists of names have been declared**: no member
access that is met spells the full name of a declaration that is in one of them only. -/
def SpellsAlike (t : Tree) (scope : Scope) (before before' : List String) (root : Nat) : Prop :=
  ∀ depth a, t.Meets Form.isOpen depth root a → ∀ object member,
    t.form? (some a) = some (.access object member) →
      scope.qualify (t.text member) = t.text object ++ "." ++ t.text member →
        (t.text member ∈ before ↔ t.text member ∈ before')

/-- **What lies below a node is read alike** when one or the other list of names has been declared. -/
structure Steady (t : Tree) (scope : Scope) (before before' : List String) (root : Nat) : Prop where
  inside : ∀ j, Reaches (fun k => t.children (some k)) root j → some j ≠ t.root
  spells : t.SpellsAlike scope before before' root

variable {t : Tree} {ss : List Slot} {statement : Slot}

/-- A tree that is built from the bottom up has no way back to its root. -/
theorem not_reaches_of_lt (h : ∀ i c, c ∈ t.children (some i) → c < i) {c r : Nat}
    (hc : c ∈ t.children (some r)) : ¬Reaches (fun k => t.children (some k)) c r := by
  intro hr
  have hle : ∀ {j}, Reaches (fun k => t.children (some k)) c j → j ≤ c := fun hj => by
    induction hj with
    | refl => exact Nat.le_refl _
    | step _ hm ih => exact Nat.le_trans (Nat.le_of_lt (h _ _ hm)) ih
  exact absurd (h r c hc) (Nat.not_lt.mpr (hle hr))

theorem namesBefore_eq (h : (t.statements.flatMap t.declaredNames).Nodup) {before after : List Slot}
    (he : t.statements = before ++ statement :: after) {n : String}
    (hn : n ∈ t.declaredNames statement) :
    t.namesBefore statement = before.flatMap t.boundNames := by
  have hno : ∀ s ∈ before, s ≠ statement := by
    rintro s hs rfl
    rw [he, List.flatMap_append, List.nodup_append] at h
    exact h.2.2 n (List.mem_flatMap.mpr ⟨s, hs, hn⟩) n
      (List.mem_flatMap.mpr ⟨s, List.mem_cons_self, hn⟩) rfl
  rw [namesBefore, he, List.takeWhile_append_of_pos (by simpa using hno),
    List.takeWhile_cons_of_neg (by simp), List.append_nil]

theorem IsUnit.ne_root (h : t.IsUnit) (hs : statement ∈ t.statements) {i root j : Nat}
    (hi : some i ∈ t.declarationNodes statement) (hr : root ∈ t.textRoots statement i)
    (hj : Reaches (fun k => t.children (some k)) root j) : some j ≠ t.root := by
  intro hroot
  have hij : Reaches (fun k => t.children (some k)) i j := by
    rcases mem_textRoots hi hr with rfl | hr
    · exact hj
    · exact .head hr hj
  obtain ⟨k, rfl, hk⟩ : ∃ k, statement = some k ∧ Reaches (fun k => t.children (some k)) k j := by
    unfold declarationNodes at hi
    split at hi
    · next hform =>
      cases statement with
      | none => cases hform
      | some k =>
        exact ⟨k, rfl, .head (mem_children_of_slots hform (by simp [Form.slots, hi])) hij⟩
    · exact ⟨i, (List.mem_singleton.mp hi).symm, hij⟩
  refine h.root j hroot.symm k ?_ hk
  rw [statements, ← hroot] at hs
  split at hs
  · next hform => exact mem_children_of_slots hform hs
  · cases hs

theorem boundNames_reorder (t : Tree) (ss : List Slot) :
    (t.reorder ss).boundNames = t.boundNames := by
  funext statement
  have hread := t.readsAs_reorder ss
  unfold boundNames
  rw [← hread.declaredNames, ← hread.form_congr (fun o => o.all Form.isTopLevel) (fun _ _ => rfl)]

theorem perm_declaredNames_reorder (hp : t.statements.Perm ss) :
    (t.statements.flatMap t.declaredNames).Perm
      ((t.reorder ss).statements.flatMap (t.reorder ss).declaredNames) := by
  rw [statements_reorder hp, ← (t.readsAs_reorder ss).declaredNames]
  exact hp.flatMap_right _

end Tree

namespace Project

variable {p : Project} {tree : Tree} {scope : Scope}

/-! ## The names of a unit -/

theorem qualify_unitScope (tree : Tree) (n : String) :
    (p.unitScope tree scope).qualify n = scope.qualify n := by
  rw [unitScope, declareAll_eq]
  rfl

theorem isLibrary_unitScope (tree : Tree) :
    (p.unitScope tree scope).isLibrary = scope.isLibrary := by
  rw [unitScope, declareAll_eq]
  rfl

section Session

variable {store : Store} {roll : List Listing} {s : Session} (hs : s.Extends store roll scope)

include hs

theorem Session.qualified_of_mem_bind {options : Options} {statement : Slot} {b : Bound}
    (hb : b ∈ ((s.context tree options).bind statement).1) :
    b.symbol.qualified = scope.qualify b.symbol.name := by
  have hpath : s.scope.path = scope.path := Scope.path_of_drained hs.scope
  rw [Context.qualified_of_mem_bind hb, Session.context, Scope.qualify, hpath, Scope.qualify]

variable (hsource : scope.isLibrary = false)

include hsource

theorem Session.publicName_takeAll {bs : List Bound} (hu : ∀ b ∈ bs, b.symbol.uri = scope.uri)
    (hq : ∀ b ∈ bs, b.symbol.qualified = scope.qualify b.symbol.name) (n : String) :
    ((bs.foldl Session.take s).store.byShortName? n).map Symbol.qualified =
      if n ∈ bs.map (·.symbol.name) then some (scope.qualify n)
      else (s.store.byShortName? n).map Symbol.qualified := by
  induction bs generalizing s with
  | nil => rfl
  | cons b bs ih =>
    rw [List.forall_mem_cons] at hu hq
    have hkind : (!s.scope.isLibrary) = true := by
      rw [Scope.isLibrary_of_drained hs.scope, hsource]
      rfl
    rw [List.foldl_cons, ih (hs.take hu.1) hu.2 hq.2, s.store_take, hs.lists.byShortName?_enroll,
      hkind]
    by_cases hn : n ∈ bs.map (·.symbol.name)
    · rw [if_pos hn, List.map_cons, if_pos (List.mem_cons_of_mem _ hn)]
    · rw [if_neg hn, List.map_cons]
      by_cases he : b.symbol.name = n
      · rw [if_pos ⟨rfl, he⟩, if_pos (he ▸ List.mem_cons_self), Option.map_some, hq.1, he]
      · rw [if_neg fun h => he h.2, if_neg (List.not_mem_cons_of_ne_of_not_mem (Ne.symm he) hn)]

theorem Session.publicName_bindStatement (tree : Tree) (options : Options) (statement : Slot)
    (n : String) :
    ((s.bindStatement tree options statement).store.byShortName? n).map Symbol.qualified =
      if n ∈ tree.boundNames statement then some (scope.qualify n)
      else (s.store.byShortName? n).map Symbol.qualified := by
  have hs' : ({ s with diagnostics := s.diagnostics ++
      ((s.context tree options).bind statement).2 } : Session).Extends store roll scope :=
    ⟨hs.scope, hs.lists, hs.old⟩
  have hnames : ((s.context tree options).bind statement).1.map (·.symbol.name) =
      tree.boundNames statement := Context.map_name_bind
  rw [← hnames]
  exact Session.publicName_takeAll hs' hsource
    (fun b hb => (Context.uri_of_mem_bind hb).trans (Scope.uri_of_drained hs.scope))
    (fun b hb => Session.qualified_of_mem_bind hs hb) n

end Session

section Known

variable (hl : p.store.Lists p.roll)

include hl

theorem qualified_of_mem_contextAfter {before : List Slot} {statement : Slot} {b : Bound}
    (hb : b ∈ ((p.contextAfter tree scope before).bind statement).1) :
    b.symbol.qualified = scope.qualify b.symbol.name := by
  have hs := (Session.extends_start hl (p.unitScope tree scope)).bindAll tree p.options before
  rw [Session.qualified_of_mem_bind hs hb, qualify_unitScope]

/-- **The short names that are known when a statement is bound**: those of the statements before
it, and those that were known already. -/
theorem publicName_contextAfter (hsource : scope.isLibrary = false) (before : List Slot)
    (n : String) :
    ((p.contextAfter tree scope before).store.byShortName? n).map Symbol.qualified =
      if n ∈ before.flatMap tree.boundNames then some (scope.qualify n)
      else (p.store.byShortName? n).map Symbol.qualified := by
  induction before using List.reverseRecOn with
  | nil => rfl
  | append_singleton before statement ih =>
    have hs := (Session.extends_start hl (p.unitScope tree scope)).bindAll tree p.options before
    have hlast := Session.publicName_bindStatement hs ((isLibrary_unitScope tree).trans hsource)
      tree p.options statement n
    simp only [contextAfter, Session.context] at ih
    rw [qualify_unitScope, ih] at hlast
    rw [contextAfter, List.foldl_append]
    refine hlast.trans ?_
    rw [List.flatMap_append, List.flatMap_singleton]
    by_cases hn : n ∈ tree.boundNames statement
    · simp [hn]
    · simp [hn]

end Known

/-! ## Another order -/

theorem unitScope_eq (tree : Tree) : p.unitScope tree scope =
    { scope with builtins := p.builtins, locals := (p.unitScope tree scope).locals } := by
  rw [unitScope, declareAll_eq]

theorem scope_contextAfter (hl : p.store.Lists p.roll) (tree : Tree) (before : List Slot) :
    (p.contextAfter tree scope before).scope.drained =
      Scope.drained { scope with
        builtins := p.builtins
        locals := (p.unitScope tree scope).locals } := by
  rw [(isOf_contextAfter hl tree scope before).scope]
  exact congrArg Scope.drained (unitScope_eq tree)

section Reorder

variable {ss : List Slot} (hp : tree.statements.Perm ss)

include hp

theorem get?_locals_reorder (n : String) : (p.unitScope tree scope).locals.get? n =
    (p.unitScope (tree.reorder ss) scope).locals.get? n := by
  rw [unitScope, get?_locals_declareAll, unitScope, get?_locals_declareAll]
  simp only [(Tree.perm_declaredNames_reorder hp).mem_iff]

variable (hl : p.store.Lists p.roll)

include hl

theorem sameMeaning_reorder (before before' : List Slot) :
    (p.contextAfter tree scope before).SameMeaning
      (p.contextAfter (tree.reorder ss) scope before') := by
  have hcx := isOf_contextAfter hl tree scope before
  have hcx' := isOf_contextAfter hl (tree.reorder ss) scope before'
  have hs : (p.contextAfter tree scope before).scope.drained = _ := scope_contextAfter hl tree before
  have hs' : (p.contextAfter (tree.reorder ss) scope before').scope.drained = _ :=
    scope_contextAfter hl (tree.reorder ss) before'
  refine ⟨hcx.options.trans hcx'.options.symm, fun n => ?_, fun n => ?_⟩
  · exact (Scope.isBuiltin_of_drained hs n).trans (Scope.isBuiltin_of_drained hs' n).symm
  · rw [Scope.meaning_of_drained hs, Scope.meaning_of_drained hs']
    unfold Scope.meaning
    dsimp only
    rw [get?_locals_reorder hp]

theorem hasLocal_reorder (before before' : List Slot) (n : String) :
    (p.contextAfter tree scope before).scope.hasLocal n =
      (p.contextAfter (tree.reorder ss) scope before').scope.hasLocal n := by
  rw [Scope.hasLocal_of_drained (scope_contextAfter hl tree before),
    Scope.hasLocal_of_drained (scope_contextAfter hl (tree.reorder ss) before'), Scope.hasLocal,
    Table.contains, get?_locals_reorder hp, Scope.hasLocal, Table.contains]

omit hp in
theorem hasImport_contextAfter (tree : Tree) (before : List Slot) (n : String) :
    (p.contextAfter tree scope before).scope.hasImport n = scope.hasImport n :=
  Scope.hasImport_of_drained (scope_contextAfter hl tree before) n

omit hp in
theorem isInAccess_reorder (before before' : List Slot) (i : Slot) :
    (p.contextAfter tree scope before).isInAccess i =
      (p.contextAfter (tree.reorder ss) scope before').isInAccess i := by
  have hread := tree.readsAs_reorder ss
  unfold Context.isInAccess
  rw [(isOf_contextAfter hl tree scope before).tree,
    (isOf_contextAfter hl (tree.reorder ss) scope before').tree, ← hread.parent]
  rcases hread.form (tree.parent i) with he | ⟨ss', ss'', he, he'⟩
  · rw [he]
  · rw [he, he']

variable (hsource : scope.isLibrary = false) (hnone : ∀ n, p.store.byShortName? n = none)
  {before : List Slot} (hb : before ⊆ tree.statements)

include hsource hnone

omit hp in
theorem knownMember?_contextAfter (object member : String) :
    (p.contextAfter tree scope before).knownMember? object member =
      if member ∈ before.flatMap tree.boundNames ∧
        scope.qualify member = object ++ "." ++ member then some (scope.qualify member) else none := by
  rw [Context.knownMember?, publicName_contextAfter hl hsource, hnone]
  by_cases hm : member ∈ before.flatMap tree.boundNames
  · simp [hm, Option.filter_some]
  · simp [hm]

include hb

omit hp in
theorem isKnown_contextAfter (n : String) : (p.contextAfter tree scope before).isKnown n =
    ((p.contextAfter tree scope before).scope.hasLocal n ||
      (p.contextAfter tree scope before).scope.hasImport n) := by
  have hs := (Session.extends_start hl (p.unitScope tree scope)).bindAll tree p.options before
  rw [Context.isKnown]
  cases hn : ((p.contextAfter tree scope before).store.names.byShortName? n).isSome with
  | false => rw [Bool.false_or]
  | true =>
    have hsome : ((p.contextAfter tree scope before).store.byShortName? n).isSome = true :=
      (hs.lists.isSome_byShortName? n).trans hn
    have hm : n ∈ tree.statements.flatMap tree.declaredNames := by
      rw [← Option.isSome_map, publicName_contextAfter hl hsource, hnone] at hsome
      by_contra hno
      rw [if_neg fun hm => hno ?_] at hsome
      · cases hsome
      · obtain ⟨s, hs, hn⟩ := List.mem_flatMap.mp hm
        exact List.mem_flatMap.mpr ⟨s, hb hs, Tree.boundNames_subset hn⟩
    have hlocal : (p.contextAfter tree scope before).scope.hasLocal n = true := by
      rw [Scope.hasLocal_of_drained (isOf_contextAfter hl tree scope before).scope,
        Scope.hasLocal, Table.contains, unitScope, get?_locals_declareAll, if_pos hm]
      rfl
    rw [hlocal]
    rfl

omit hb in
/-- **A member access** reads the same: the member is known in both, or its full name is not what the
access spells. -/
theorem accessReference_reorder (before' : List Slot) {object member : Slot}
    (hspells : scope.qualify (tree.text member) = tree.text object ++ "." ++ tree.text member →
      (tree.text member ∈ before.flatMap tree.boundNames ↔
        tree.text member ∈ before'.flatMap tree.boundNames)) (strong : Bool) :
    (p.contextAfter tree scope before).accessReference object member strong =
      (p.contextAfter (tree.reorder ss) scope before').accessReference object member strong := by
  have hread := tree.readsAs_reorder ss
  have hiff : (tree.text member ∈ before.flatMap tree.boundNames ∧
        scope.qualify (tree.text member) = tree.text object ++ "." ++ tree.text member) ↔
      (tree.text member ∈ before'.flatMap (tree.reorder ss).boundNames ∧
        scope.qualify (tree.text member) = tree.text object ++ "." ++ tree.text member) := by
    rw [Tree.boundNames_reorder]
    exact and_congr_left hspells
  unfold Context.accessReference
  rw [(isOf_contextAfter hl tree scope before).tree,
    (isOf_contextAfter hl (tree.reorder ss) scope before').tree, ← hread.span?, ← hread.text]
  simp only [knownMember?_contextAfter hl hsource hnone, hasLocal_reorder hp hl before before',
    hasImport_contextAfter hl, hiff]

theorem identifierReference_reorder {before' : List Slot} (hb' : before' ⊆ ss) (i : Slot)
    (text : String) (strong : Bool) :
    (p.contextAfter tree scope before).identifierReference i text strong =
      (p.contextAfter (tree.reorder ss) scope before').identifierReference i text strong := by
  have hread := tree.readsAs_reorder ss
  have hb₂ : before' ⊆ (tree.reorder ss).statements := by rwa [Tree.statements_reorder hp]
  unfold Context.identifierReference
  rw [(isOf_contextAfter hl tree scope before).tree,
    (isOf_contextAfter hl (tree.reorder ss) scope before').tree, ← hread.span?,
    ← hread.isDeclaredName, isInAccess_reorder hl before before',
    isKnown_contextAfter hl hsource hnone hb, isKnown_contextAfter hl hsource hnone hb₂,
    hasLocal_reorder hp hl before before', hasImport_contextAfter hl, hasImport_contextAfter hl]

/-- **A declaration is read alike** where it makes no difference what has been declared before. -/
theorem readsMore_reorder {before' : List Slot} (hb' : before' ⊆ ss) :
    (p.contextAfter tree scope before).ReadsMore (fun _ => False)
      (tree.Steady scope (before.flatMap tree.boundNames) (before'.flatMap tree.boundNames))
      (p.contextAfter (tree.reorder ss) scope before') := by
  have hs : (p.contextAfter tree scope before).scope.drained = _ := scope_contextAfter hl tree before
  have hs' : (p.contextAfter (tree.reorder ss) scope before').scope.drained = _ :=
    scope_contextAfter hl (tree.reorder ss) before'
  refine
    { tree := tree.readsAs_reorder ss
      options := (isOf_contextAfter hl tree scope before).options.trans
        (isOf_contextAfter hl (tree.reorder ss) scope before').options.symm
      uri := (Scope.uri_of_drained hs).trans (Scope.uri_of_drained hs').symm
      path := (Scope.path_of_drained hs).trans (Scope.path_of_drained hs').symm
      kind := (Scope.kind_of_drained hs).trans (Scope.kind_of_drained hs').symm
      children := fun {i} hi => ?children
      down := fun hi hc hopen => ?down
      access := fun i c object member strong hi hc hform => ?access
      identifier := fun i c text strong _ _ _ => ?identifier }
  case children =>
    show tree.children (some i) = (tree.reorder ss).children (some i)
    rw [Tree.children, Tree.children, Tree.form?_reorder_of_ne _ _ (hi.inside i .refl)]
  case down =>
    exact ⟨fun j hj => hi.inside j (.head hc hj), fun _ a ha => hi.spells _ a (.deeper hc hopen ha)⟩
  case access =>
    rw [accessReference_reorder hp hl hsource hnone before'
      (hi.spells 1 c (.child hc) object member hform)]
    exact .refl _
  case identifier =>
    rw [identifierReference_reorder hp hl hsource hnone hb hb']
    exact .refl _

/-- **A declaration in another order of the statements** declares the same. What it refers to is the
same where it makes no difference what has been declared before. -/
theorem exists_of_mem_bind_reorder {before' : List Slot} (hb' : before' ⊆ ss) {statement : Slot}
    {b : Bound} (hm : b ∈ ((p.contextAfter tree scope before).bind statement).1) :
    ∃ b' ∈ ((p.contextAfter (tree.reorder ss) scope before').bind statement).1,
      b.symbol.bare = b'.symbol.bare ∧
      ∃ i, tree.DeclaresAt statement i b.symbol.name b.symbol.span ∧
        ((∀ root ∈ tree.textRoots statement i, tree.Steady scope
            (before.flatMap tree.boundNames) (before'.flatMap tree.boundNames) root) →
          b.symbol.classless = b'.symbol.classless ∧ b.deferred = b'.deferred) := by
  obtain ⟨d, hd, hbound⟩ := Context.exists_of_mem_bind hm
  have hread := readsMore_reorder hp hl hsource hnone hb hb'
  obtain ⟨d', hd', hdd⟩ := exists_partner (hread.declarations statement) hd
  obtain ⟨b', hb', hbound'⟩ := exists_partner (Context.forall₂_bind statement) hd'
  obtain ⟨i, hplace, hreferences⟩ := hdd.references
  have hbare : b.symbol.bare = d.1.bare := hbound.bare
  refine ⟨b', hb', ?_, i, ?_, fun hi => ?_⟩
  · rw [hbare, hdd.symbol]
    exact hbound'.bare.symm
  · rw [Symbol.name_of_bare hbare, Symbol.span_of_bare hbare]
    exact hplace
  · obtain rfl : d = d' := Prod.ext hdd.symbol ((hreferences hi).eq fun _ => id)
    have he := Draft.Reflects.ext ((sameMeaning_reorder hp hl before before').reflects hbound)
      hbound'
    rw [Draft.mk.injEq] at he
    exact ⟨(congrArg Symbol.classless he.1 :), he.2⟩

end Reorder

/-! ## What a unit answers -/

theorem Declared.exportedName? (hl : p.store.Lists p.roll) {bs : List Bound}
    (h : p.Declared tree scope bs) (n : String) : (p.enter tree scope).exportedName? scope.uri n =
      if n ∈ tree.statements.flatMap tree.boundNames then some (scope.qualify n) else none := by
  have hlist : ∀ {ids : List SymbolId} {bs : List Bound}, List.Forall₂ (fun id b =>
      (p.enter tree scope).symbol? id = some b.symbol) ids bs →
        ids.filterMap (p.enter tree scope).symbol? = bs.map Bound.symbol := by
    intro ids bs hb
    induction hb with
    | nil => rfl
    | cons hx _ ih => rw [List.filterMap_cons_some hx, ih, List.map_cons]
  rw [Project.exportedName?, idsIn_enter, if_pos rfl, hlist h.binds, ← h.names]
  cases hx : (bs.map Bound.symbol).find? (·.name = n) with
  | none =>
    rw [if_neg]
    · rfl
    · intro hm
      obtain ⟨b, hb, hn⟩ := List.mem_map.mp hm
      simpa [hn] using List.find?_eq_none.mp hx b.symbol (List.mem_map_of_mem hb)
  | some x =>
    obtain ⟨b, hb, rfl⟩ := List.mem_map.mp (List.mem_of_find?_eq_some hx)
    obtain rfl : b.symbol.name = n := by simpa using List.find?_some hx
    obtain ⟨_, _, _, -, hm⟩ := (h.context b).mp hb
    rw [if_pos (List.mem_map_of_mem hb), Option.map_some, qualified_of_mem_contextAfter hl hm]

theorem exportedName?_reorder (hl : p.store.Lists p.roll) {ss : List Slot}
    (hp : tree.statements.Perm ss) (uri n : String) :
    (p.enter tree scope).exportedName? uri n =
      (p.enter (tree.reorder ss) scope).exportedName? uri n := by
  by_cases hu : uri = scope.uri
  · obtain ⟨bs, hbs⟩ := exists_declared hl tree scope
    obtain ⟨bs', hbs'⟩ := exists_declared hl (tree.reorder ss) scope
    rw [hu, hbs.exportedName? hl, hbs'.exportedName? hl, Tree.statements_reorder hp,
      Tree.boundNames_reorder]
    simp only [(hp.flatMap_right _).mem_iff]
  · rw [exportedName?_enter hl hu, exportedName?_enter hl hu]

/-! ## Units -/

section Unit

variable (hl : p.store.Lists p.roll) (hr : p.Recalls fun _ => True)
  (hn : p.units.get? scope.uri = none) (hf : scope.IsFresh)

include hl hr hn hf

theorem classless_bind {id : SymbolId} {b : Bound} (h : (p.session tree scope).Holds id b) :
    ∃ x, (p.bind tree scope).1.symbol? id = some x ∧ x.bare = b.symbol.bare ∧
      x.classless =
        b.symbol.classless.learnAll ((p.enter tree scope).lateOf scope.requests b) := by
  obtain ⟨x, hx, ho⟩ := Option.map_eq_some_iff.mp (orphan_bind hl hr hn hf h)
  refine ⟨x, hx, ?_, ?_⟩
  · rw [← Symbol.bare_orphan, ho, Symbol.bare_learnAll, Symbol.bare_orphan]
  · rw [← Symbol.classless_orphan, ho, Symbol.classless_learnAll, Symbol.classless_orphan]

variable (hsource : scope.isLibrary = false) (hnone : ∀ n, p.store.byShortName? n = none)
  (ht : tree.IsUnit) {ss : List Slot} (hp : tree.statements.Perm ss)

include hsource hnone ht hp

/-- **A unit with its statements in another order** declares the same symbols. A symbol has the same
table, dependencies and text where it makes no difference what is declared before its statement. -/
theorem alike_reorder {id : SymbolId} (hid : id ∈ (p.bind tree scope).2.1) :
    ∃ x, (p.bind tree scope).1.symbol? id = some x ∧
      ∃ statement ∈ tree.statements, ∃ i, tree.DeclaresAt statement i x.name x.span ∧
        ∃ id' ∈ (p.bind (tree.reorder ss) scope).2.1, ∃ y,
          (p.bind (tree.reorder ss) scope).1.symbol? id' = some y ∧ x.bare = y.bare ∧
            ((∀ root ∈ tree.textRoots statement i, tree.SpellsAlike scope
                (tree.namesBefore statement) ((tree.reorder ss).namesBefore statement) root) →
              x.table = y.table ∧ x.edges = y.edges ∧ x.compiled = y.compiled) := by
  obtain ⟨bs, hbs⟩ := exists_declared hl tree scope
  obtain ⟨bs', hbs'⟩ := exists_declared hl (tree.reorder ss) scope
  rw [ids_bind_of_new hn] at hid ⊢
  obtain ⟨b, hb, hold⟩ := exists_partner (hbs.carries hf).holds hid
  obtain ⟨x, hx, hxb, hxc⟩ := classless_bind hl hr hn hf hold
  -- The statement of the symbol is found in the other order as well.
  obtain ⟨before, statement, after, hst, hm⟩ := (hbs.context b).mp hb
  have hstm : statement ∈ tree.statements := by
    rw [hst]
    exact List.mem_append_right _ List.mem_cons_self
  obtain ⟨before', after', rfl⟩ := List.append_of_mem (hp.mem_iff.mp hstm)
  have hst' := Tree.statements_reorder hp
  have hbefore : before ⊆ tree.statements := by
    rw [hst]
    exact List.subset_append_left _ _
  obtain ⟨b', hm', hbare, i, hplace, hsame⟩ := exists_of_mem_bind_reorder hp hl hsource hnone
    hbefore (List.subset_append_left before' (statement :: after')) hm
  obtain ⟨id', hid', hold'⟩ := exists_partner' (hbs'.carries hf).holds
    ((hbs'.context b').mpr ⟨before', statement, after', hst', hm'⟩)
  obtain ⟨y, hy, hyb, hyc⟩ := classless_bind hl hr hn hf hold'
  refine ⟨x, hx, statement, hstm, i, ?place, id', hid', y, hy, hxb.trans (hbare.trans hyb.symm),
    fun hspells => ?same⟩
  case place =>
    rw [Symbol.name_of_bare hxb, Symbol.span_of_bare hxb]
    exact hplace
  case same =>
    have hname : b.symbol.name ∈ tree.declaredNames statement := by
      have hnames : ((p.contextAfter tree scope before).bind statement).1.map (·.symbol.name) =
          tree.boundNames statement := Context.map_name_bind
      exact Tree.boundNames_subset (hnames ▸ List.mem_map_of_mem hm)
    have hread := tree.readsAs_reorder (before' ++ statement :: after')
    have hnames' := (Tree.perm_declaredNames_reorder hp).nodup_iff.mp ht.names
    rw [Tree.namesBefore_eq ht.names hst hname, Tree.namesBefore_eq hnames' hst'
      (hread.declaredNames ▸ hname), Tree.boundNames_reorder] at hspells
    obtain ⟨hclassless, hdeferred⟩ := hsame fun root hroot =>
      ⟨fun j hj => ht.ne_root hstm hplace.node hroot hj, hspells root hroot⟩
    have hlate : (p.enter tree scope).lateOf scope.requests b =
        (p.enter (tree.reorder (before' ++ statement :: after')) scope).lateOf scope.requests b' := by
      unfold lateOf Bound.told
      simp only [exportedName?_reorder hl hp, hdeferred]
    have hxy : x.classless = y.classless := by rw [hxc, hyc, hclassless, hlate]
    refine ⟨(congrArg Symbol.table hxy :), (congrArg Symbol.edges hxy :), ?_⟩
    rw [← Symbol.compiled_classless, hxy, Symbol.compiled_classless]

end Unit

/-- **A unit that is bound first** has the same symbols whatever the order of its statements: the
same tables, dependencies and texts, unless a member access spells the full name of a declaration of
the unit that comes before the statement in one order only. -/
theorem alike_bind_reorder (options : Options) {tree : Tree} (ht : tree.IsUnit) {ss : List Slot}
    (hp : tree.statements.Perm ss) {scope : Scope} (hf : scope.IsFresh)
    (hsource : scope.isLibrary = false) :
    let p := (empty options).bind tree scope
    let q := (empty options).bind (tree.reorder ss) scope
    ∀ id ∈ p.2.1, ∃ x, p.1.symbol? id = some x ∧
      ∃ statement ∈ tree.statements, ∃ i, tree.DeclaresAt statement i x.name x.span ∧
        ∃ id' ∈ q.2.1, ∃ y, q.1.symbol? id' = some y ∧ x.bare = y.bare ∧
          ((∀ root ∈ tree.textRoots statement i, tree.SpellsAlike scope
              (tree.namesBefore statement) ((tree.reorder ss).namesBefore statement) root) →
            x.table = y.table ∧ x.edges = y.edges ∧ x.compiled = y.compiled) := by
  intro p q id hid
  have hr : (empty options).Recalls fun _ => True :=
    (History.recalls_run options (List.forall_mem_nil _)).forget
  exact alike_reorder (History.lists_run options []) hr rfl hf hsource (fun _ => rfl) ht hp hid

/-! ## A full name -/

/-- A function that spells the full name of the class that is declared last. -/
def spelledTree : Tree :=
  Tree.link
    { file := "u.avt"
      source := "function f() \x7b\n  app.Foo\n\x7d\nclass Bar \x7b\x7d\nclass Foo \x7b\x7d"
      nodes := #[⟨.identifier "f", ⟨9, 10⟩, none⟩, ⟨.identifier "app", ⟨17, 20⟩, none⟩,
        ⟨.identifier "Foo", ⟨21, 24⟩, none⟩, ⟨.access (some 1) (some 2), ⟨17, 24⟩, none⟩,
        ⟨.wrapper .expressionStatement (some 3), ⟨17, 24⟩, none⟩, ⟨.block [some 4], ⟨13, 26⟩, none⟩,
        ⟨.function .declaration { name := some 0, body := some 5 }, ⟨0, 26⟩, none⟩,
        ⟨.identifier "Bar", ⟨33, 36⟩, none⟩,
        ⟨.classLike .classDeclaration { name := some 7 }, ⟨27, 39⟩, none⟩,
        ⟨.identifier "Foo", ⟨46, 49⟩, none⟩,
        ⟨.classLike .classDeclaration { name := some 9 }, ⟨40, 52⟩, none⟩,
        ⟨.sourceFile [some 6, some 8, some 10], ⟨0, 52⟩, none⟩] } 11

/-- Its namespace. -/
def spelledScope : Scope := { uri := "u.avt", path := ["app"] }

theorem isUnit_spelledTree : spelledTree.IsUnit := by
  have hlt : ∀ i c, c ∈ spelledTree.children (some i) → c < i := by
    intro i c hc
    by_cases hi : i < 12
    · have hall : ∀ i < 12, ∀ c ∈ spelledTree.children (some i), c < i := by decide +kernel
      exact hall i hi c hc
    · have hnone : spelledTree.form? (some i) = none := by
        have hsize : spelledTree.nodes.size = 12 := by decide +kernel
        rw [Tree.form?, Tree.node?, Option.bind_some, Array.getElem?_eq_none (by omega)]
        rfl
      rw [Tree.children, hnone] at hc
      cases hc
  exact ⟨by decide +kernel, fun r _ c hc => Tree.not_reaches_of_lt hlt hc⟩

/-- Where the class comes last in both orders, the function is read alike. -/
theorem alike_bind_reorder_spelledTree :
    let p := (empty {}).bind spelledTree spelledScope
    let q := (empty {}).bind (spelledTree.reorder [some 8, some 6, some 10]) spelledScope
    spelledTree.IsUnit ∧ spelledTree.statements.Perm [some 8, some 6, some 10] ∧
      spelledScope.IsFresh ∧ spelledScope.isLibrary = false ∧
      p.2.1 = [⟨0, 0⟩, ⟨1, 0⟩, ⟨2, 0⟩] ∧
      ∀ id ∈ p.2.1, ∃ x, p.1.symbol? id = some x ∧
        ∃ id' ∈ q.2.1, ∃ y, q.1.symbol? id' = some y ∧ x.bare = y.bare ∧
          x.table = y.table ∧ x.edges = y.edges ∧ x.compiled = y.compiled := by
  dsimp only
  have hp : spelledTree.statements.Perm [some 8, some 6, some 10] := by decide +kernel
  have hf : spelledScope.IsFresh := fun n => rfl
  refine ⟨isUnit_spelledTree, hp, hf, rfl, by decide +kernel, fun id hid => ?_⟩
  obtain ⟨x, hx, statement, hst, i, -, id', hid', y, hy, hbare, hsame⟩ :=
    alike_bind_reorder {} isUnit_spelledTree hp hf rfl id hid
  refine ⟨x, hx, id', hid', y, hy, hbare, hsame fun root _ depth a _ object member ha _ => ?_⟩
  -- The one access is to the class, which comes before none of the others.
  have hno : ∀ statement ∈ spelledTree.statements,
      "Foo" ∉ spelledTree.namesBefore statement ∧
        "Foo" ∉ (spelledTree.reorder [some 8, some 6, some 10]).namesBefore statement := by
    decide +kernel
  have hmember : spelledTree.text member = "Foo" := by
    have hforms : spelledTree.nodes.toList.map Node.form = [.identifier "f", .identifier "app",
        .identifier "Foo", .access (some 1) (some 2), .wrapper .expressionStatement (some 3),
        .block [some 4], .function .declaration { name := some 0, body := some 5 },
        .identifier "Bar", .classLike .classDeclaration { name := some 7 }, .identifier "Foo",
        .classLike .classDeclaration { name := some 9 }, .sourceFile [some 6, some 8, some 10]] := by
      decide +kernel
    obtain ⟨n, hn, hform⟩ := Option.map_eq_some_iff.mp ha
    have hm : Form.access object member ∈ spelledTree.nodes.toList.map Node.form :=
      hform ▸ List.mem_map_of_mem (Array.mem_toList_iff.mpr (Array.mem_of_getElem? hn))
    simp only [hforms, List.mem_cons, Form.access.injEq, reduceCtorEq, List.not_mem_nil, or_false,
      false_or] at hm
    rw [hm.2]
    decide +kernel
  rw [hmember]
  exact iff_of_false (hno statement hst).1 (hno statement hst).2

/-- Where the class comes first, the function depends on it and remembers its name. -/
theorem not_alike_spelledTree :
    let p := ((empty {}).bind spelledTree spelledScope).1
    let q := ((empty {}).bind (spelledTree.reorder [some 10, some 6, some 8]) spelledScope).1
    spelledTree.IsUnit ∧ spelledTree.statements.Perm [some 10, some 6, some 8] ∧
      (p.symbol? ⟨0, 0⟩).map (fun x => (x.qualified, x.table.keys, x.edges)) =
        some ("app.f", [], []) ∧
      (q.symbol? ⟨1, 0⟩).map (fun x => (x.qualified, x.table.keys, x.edges)) =
        some ("app.f", ["app.Foo"], [⟨"app.Foo", .ambient, false⟩]) := by
  exact ⟨isUnit_spelledTree, by decide +kernel, by decide +kernel, by decide +kernel⟩

end Project

end Bindery
