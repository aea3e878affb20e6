import Mathlib.Data.List.Induction
import Bindery.Binding.Draft
import Bindery.Proofs.Symbol.Ahead

/-!
# What late imports add up to

A symbol is bound once and told afterwards of the imports that it has waited for, one at a time.
What it is in the end can be read off the list of these imports.

* `LateImport`, `Symbol.learn`, `ClassInfo.learn`: an import that was found late, and what it makes of
  a symbol.
* `LateImport.answer?`: what a name was found to mean.
* `Symbol.get?_table_learnAll`, `Symbol.get?_loaded_learnAll`: replacements and targets.
* **`Symbol.mem_edges_learnAll`**, **`Symbol.base_learnAll`**: dependencies and bases.
-/

namespace Bindery

/-- An import that has been found after a symbol was bound. -/
structure LateImport where
  /-- What has waited for it. -/
  deferral : Deferral
  target : String
  source : String
  /-- Who went by the target then, if it is a class. -/
  parent : Option SymbolId

namespace LateImport

/-- The short name of the import. -/
def name (l : LateImport) : String := l.deferral.name

/-- The dependency on what has been found. -/
def edge (l : LateImport) : Dependency := ⟨l.target, .otherUnit l.source, l.deferral.strong⟩

/-- What a name was found to mean last. -/
def answer? (ls : List LateImport) (n : String) : Option String :=
  (ls.filter (·.name = n)).getLast?.map LateImport.target

theorem answer?_append (ls : List LateImport) (l : LateImport) (n : String) :
    answer? (ls ++ [l]) n = if l.name = n then some l.target else answer? ls n := by
  unfold answer?
  rw [List.filter_append]
  by_cases hn : l.name = n
  · rw [if_pos hn, List.filter_cons_of_pos (by simpa using hn), List.filter_nil,
      List.getLast?_concat, Option.map_some]
  · rw [if_neg hn, List.filter_cons_of_neg (by simpa using hn), List.filter_nil, List.append_nil]

theorem isSome_answer? {ls : List LateImport} {n : String} :
    (answer? ls n).isSome = true ↔ n ∈ ls.map name := by
  rw [answer?, Option.isSome_map, List.getLast?_isSome, Ne, List.filter_eq_nil_iff, List.mem_map]
  simp

theorem answer?_eq_none {ls : List LateImport} {n : String} (h : n ∉ ls.map name) :
    answer? ls n = none := by
  rwa [← isSome_answer?, Bool.not_eq_true, Option.isSome_eq_false_iff,
    Option.isNone_iff_eq_none] at h

end LateImport

/-- A class is told of a late import. -/
def ClassInfo.learn (c : ClassInfo) (l : LateImport) : ClassInfo :=
  Project.adoptParent l.target l.parent (Symbol.completeBase l.name l.target c)

namespace Symbol

/-- A symbol is told of a late import. -/
def learn (x : Symbol) (l : LateImport) : Symbol :=
  Store.settled l.name l.target l.source l.parent x ⟨default, l.deferral.strong, l.deferral.placed⟩

/-- A symbol is told of late imports in turn. -/
def learnAll (x : Symbol) (ls : List LateImport) : Symbol := ls.foldl learn x

variable (x : Symbol) (ls : List LateImport) (l : LateImport)

theorem learnAll_append (ls' : List LateImport) :
    x.learnAll (ls ++ ls') = (x.learnAll ls).learnAll ls' := List.foldl_append

theorem learnAll_concat : x.learnAll (ls ++ [l]) = (x.learnAll ls).learn l :=
  learnAll_append x ls [l]

/-- References that wait for one import are settled in turn. -/
theorem foldl_settled (n target source : String) (parent : Option SymbolId)
    (rs : List WaitingReference) : rs.foldl (Store.settled n target source parent) x =
      x.learnAll (rs.map fun r => ⟨⟨n, r.strong, r.placed⟩, target, source, parent⟩) := by
  rw [learnAll, List.foldl_map]
  rfl

@[simp] theorem bare_learn : (x.learn l).bare = x.bare := Store.bare_settled _ _

@[simp] theorem bare_learnAll : (x.learnAll ls).bare = x.bare := by
  induction ls using List.reverseRecOn with
  | nil => rfl
  | append_singleton ls l ih => rw [learnAll_concat, bare_learn, ih]

@[simp] theorem qualified_learn : (x.learn l).qualified = x.qualified :=
  qualified_of_bare (bare_learn x l)

@[simp] theorem qualified_learnAll : (x.learnAll ls).qualified = x.qualified :=
  qualified_of_bare (bare_learnAll x ls)

/-! ## Places and targets -/

theorem table_learn : (x.learn l).table =
    x.table.modify l.name fun m => { m with replacement := some l.target } :=
  table_settled _ _ _ _ _ _

theorem loaded_learn : (x.learn l).loaded = x.loaded.insert l.name (some l.target) :=
  loaded_settled _ _ _ _ _ _

theorem keys_table_learnAll : (x.learnAll ls).table.keys = x.table.keys := by
  induction ls using List.reverseRecOn with
  | nil => rfl
  | append_singleton ls l ih => rw [learnAll_concat, table_learn, Table.keys_modify, ih]

/-- **Replacements**: a name that was found late is replaced by what was found last. -/
theorem get?_table_learnAll (n : String) : (x.learnAll ls).table.get? n =
    (x.table.get? n).map fun m =>
      { m with replacement := (LateImport.answer? ls n).or m.replacement } := by
  induction ls using List.reverseRecOn with
  | nil =>
    show x.table.get? n = _
    cases x.table.get? n <;> rfl
  | append_singleton ls l ih =>
    rw [learnAll_concat, table_learn, Table.get?_modify, ih, LateImport.answer?_append]
    by_cases hn : n = l.name
    · rw [if_pos hn, if_pos hn.symm, Option.map_map]
      rfl
    · rw [if_neg hn, if_neg (Ne.symm hn)]

/-- **Targets**: the same for what a name was classified as. -/
theorem get?_loaded_learnAll (n : String) : (x.learnAll ls).loaded.get? n =
    ((LateImport.answer? ls n).map some).or (x.loaded.get? n) := by
  induction ls using List.reverseRecOn with
  | nil => rfl
  | append_singleton ls l ih =>
    rw [learnAll_concat, loaded_learn, Table.get?_insert, ih, LateImport.answer?_append]
    by_cases hn : n = l.name
    · rw [if_pos hn, if_pos hn.symm]
      rfl
    · rw [if_neg hn, if_neg (Ne.symm hn)]

/-! ## Dependencies -/

theorem edges_learn : (x.learn l).edges =
    if l.target = x.qualified ∨ l.target ∈ x.edges.map Dependency.target then x.edges
    else x.edges ++ [l.edge] := edges_settled _ _ _ _ _ _

theorem prefix_edges_learnAll : x.edges <+: (x.learnAll ls).edges := by
  induction ls using List.reverseRecOn with
  | nil => exact List.prefix_rfl
  | append_singleton ls l ih =>
    rw [learnAll_concat, edges_learn]
    split_ifs
    · exact ih
    · exact ih.trans (List.prefix_append _ _)

variable {x ls l} in
theorem mem_edges_learn_iff {e : Dependency} : e ∈ (x.learn l).edges ↔ e ∈ x.edges ∨
    e = l.edge ∧ l.target ≠ x.qualified ∧ l.target ∉ x.edges.map Dependency.target := by
  rw [edges_learn]
  split_ifs with hc
  · exact ⟨.inl, fun h => h.resolve_right fun hnew => absurd hc (not_or.mpr hnew.2)⟩
  · rw [List.mem_append, List.mem_singleton, and_iff_left (not_or.mp hc)]

variable {x ls l} in
/-- **The dependencies that are added** are those on what has been found. -/
theorem mem_edges_learnAll {e : Dependency} (h : e ∈ (x.learnAll ls).edges) :
    e ∈ x.edges ∨ ∃ l ∈ ls, e = l.edge ∧ l.target ≠ x.qualified := by
  induction ls using List.reverseRecOn with
  | nil => exact .inl h
  | append_singleton ls l ih =>
    rw [learnAll_concat, mem_edges_learn_iff, qualified_learnAll] at h
    rcases h with h | ⟨rfl, hq, -⟩
    · exact (ih h).imp_right fun ⟨k, hk, hek⟩ => ⟨k, List.mem_append_left _ hk, hek⟩
    · exact .inr ⟨l, List.mem_append_right _ (List.mem_singleton_self l), rfl, hq⟩

/-! ## Bases -/

theorem classInfo_addEdge (e : Dependency) : (x.addEdge e).classInfo = x.classInfo := by
  unfold addEdge
  split_ifs <;> rfl

theorem classInfo_learn : (x.learn l).classInfo = x.classInfo.map (·.learn l) := by
  show ((Symbol.addEdge _ _).classInfo).map _ = _
  rw [classInfo_addEdge]
  show (x.classInfo.map _).map _ = _
  rw [Option.map_map]
  rfl

theorem bases_learn (c : ClassInfo) :
    (c.learn l).base = (if c.awaitedBase = some l.name then some l.target else c.base) ∧
    (c.learn l).awaitedBase = (if c.awaitedBase = some l.name then none else c.awaitedBase) ∧
    (c.learn l).extraBases = c.extraBases ∧ (c.learn l).interfaces = c.interfaces := by
  unfold ClassInfo.learn Project.adoptParent completeBase
  split_ifs <;> exact ⟨rfl, rfl, rfl, rfl⟩

/-- **The base of a class** is the one it was bound with, unless it has waited for one of the
imports. -/
theorem base_learnAll {c : ClassInfo} (hc : x.classInfo = some c) :
    ∃ c', (x.learnAll ls).classInfo = some c' ∧
      (c'.base = c.base ∧ c'.awaitedBase = c.awaitedBase ∨
        ∃ before l after, ls = before ++ l :: after ∧ c.awaitedBase = some l.name ∧
          c'.base = some l.target ∧ c'.awaitedBase = none) := by
  induction ls using List.reverseRecOn with
  | nil => exact ⟨c, hc, .inl ⟨rfl, rfl⟩⟩
  | append_singleton ls l ih =>
    obtain ⟨c', hc', h⟩ := ih
    obtain ⟨hb, ha, -⟩ := bases_learn l c'
    refine ⟨_, by rw [learnAll_concat, classInfo_learn, hc', Option.map_some], ?_⟩
    rw [hb, ha]
    rcases h with ⟨hbase, hawait⟩ | ⟨before, l', after, rfl, hl', hbase, hawait⟩
    · rw [hbase, hawait]
      split_ifs with hl
      · exact .inr ⟨ls, l, [], rfl, hl, rfl, rfl⟩
      · exact .inl ⟨rfl, rfl⟩
    · rw [hbase, hawait, if_neg nofun, if_neg nofun]
      exact .inr ⟨before, l', after ++ [l], by simp, hl', rfl, rfl⟩

/-- **A class is told of one import**, once for each reference that has waited for it. -/
theorem bases_learnAll {c : ClassInfo} (hc : x.classInfo = some c) {n target : String}
    (hls : ∀ l ∈ ls, l.name = n ∧ l.target = target) :
    ∃ c', (x.learnAll ls).classInfo = some c' ∧
      c'.base = (if c.awaitedBase = some n ∧ ls ≠ [] then some target else c.base) ∧
      c'.extraBases = c.extraBases ∧ c'.interfaces = c.interfaces := by
  induction ls generalizing x c with
  | nil => exact ⟨c, hc, by simp, rfl, rfl⟩
  | cons l ls ih =>
    rw [List.forall_mem_cons] at hls
    obtain ⟨⟨rfl, rfl⟩, hls⟩ := hls
    obtain ⟨hb, ha, he, hi⟩ := bases_learn l c
    have hl : (x.learn l).classInfo = some (c.learn l) := by
      rw [classInfo_learn, hc, Option.map_some]
    obtain ⟨c', hc', hbase, hextra, hinterfaces⟩ := ih _ hl hls
    refine ⟨c', hc', ?_, hextra.trans he, hinterfaces.trans hi⟩
    rw [hbase, ha, hb]
    by_cases hn : c.awaitedBase = some l.name <;> simp [hn]

end Symbol

end Bindery
