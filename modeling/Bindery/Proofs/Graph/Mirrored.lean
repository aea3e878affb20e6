import Mathlib.Data.List.Induction
import Bindery.Proofs.Graph.Affected

/-!
# Imports in both directions

A graph of units keeps the imports of every unit and the importers of every unit in two tables,
which every change has to touch. What is found in them after any number of requests can be read off
the requests.

* `ImportGraph.Request`, `ImportGraph.run`: changes of the graph, in turn.
* `ImportGraph.Mirrored`: both tables list the same imports, and no unit without neighbours.
* **`ImportGraph.mem_neighbours_perform`**, **`ImportGraph.Mirrored.perform`**: one request.
* `ImportGraph.Lasts`, **`ImportGraph.mem_neighbours_run`**: who imports whom after the requests.
* `Reaches.reverse`: a path in the other direction.
* `ImportGraph.Tells`: what is found after the requests.
* **`ImportGraph.tells_run`**: this is found after any requests.
-/

namespace Bindery

theorem Reaches.reverse {α : Type} {next prev : α → List α} {a x : α}
    (hprev : ∀ v w, w ∈ next v → v ∈ prev w) (h : Reaches next a x) : Reaches prev x a := by
  induction h with
  | refl => exact .refl
  | step _ hc ih => exact ih.head (hprev _ _ hc)

/-- Names in strictly ascending order. -/
def Text.IsAscending (names : List String) : Prop :=
  names.Pairwise fun a b => notAfter a.toList b.toList = true ∧ a ≠ b

theorem Text.isAscending_sortNames {names : List String} (h : names.Nodup) :
    IsAscending (sortNames names) := by
  have hnodup : (sortNames names).Nodup := (List.mergeSort_perm _ _).nodup_iff.mpr h
  exact (pairwise_sortNames names).and hnodup

namespace ImportGraph

/-! ## Requests -/

/-- What is asked of a graph of units. -/
inductive Request where
  | addImport (unit imported : String)
  | replaceImports (unit : String) (imported : List String)
  | forget (unit : String)
  | clear
  deriving DecidableEq, Repr

namespace Request

/-- The unit `b` is given to `a` as an import. -/
def Gives (a b : String) : Request → Prop
  | addImport unit imported => unit = a ∧ imported = b
  | replaceImports unit imported => unit = a ∧ b ∈ imported
  | forget _ | clear => False

/-- Whatever `a` imported before is dropped. -/
def Drops (a : String) : Request → Prop
  | addImport _ _ => False
  | replaceImports unit _ | forget unit => unit = a
  | clear => True

end Request

/-- A request is carried out. -/
def perform (g : ImportGraph) : Request → ImportGraph
  | .addImport unit imported => g.addImport unit imported
  | .replaceImports unit imported => g.replaceImports unit imported
  | .forget unit => g.forget unit
  | .clear => {}

/-- The graph after requests, from the beginning. -/
def run (rs : List Request) : ImportGraph := rs.foldl perform {}

variable {g : ImportGraph} {t : Table (Roster String)} {u a b : String} {r : Request}
  {rs : List Request}

theorem run_concat (rs : List Request) (r : Request) : run (rs ++ [r]) = (run rs).perform r := by
  rw [run, List.foldl_append]
  rfl

/-! ## One request -/

theorem not_mem_neighbours_empty : b ∉ neighbours (Table.empty : Table (Roster String)) a :=
  Roster.not_mem_empty b

theorem mem_neighbours_forget :
    b ∈ neighbours (g.forget u).imports a ↔ u ≠ a ∧ b ∈ neighbours g.imports a := by
  rw [neighbours, get?_imports_forget]
  by_cases ha : a = u
  · simp [ha]
  · rw [if_neg ha, neighbours]
    exact ⟨fun hb => ⟨Ne.symm ha, hb⟩, And.right⟩

/-- A unit comes to import several others, and no unit comes to import itself. -/
theorem mem_neighbours_addAll_iff {vs : List String} : b ∈ neighbours (g.addAll u vs).imports a ↔
    b ∈ neighbours g.imports a ∨ u = a ∧ b ∈ vs ∧ b ≠ a := by
  by_cases ha : a = u
  · subst ha
    rw [mem_neighbours_addAll]
    simp
  · rw [neighbours_congr (get?_imports_addAll vs ha)]
    simp [Ne.symm ha]

/-- **Who imports whom after one request**: what it gives, and what it does not drop. -/
theorem mem_neighbours_perform : b ∈ neighbours (g.perform r).imports a ↔
    (r.Gives a b ∧ b ≠ a) ∨ (¬r.Drops a ∧ b ∈ neighbours g.imports a) := by
  cases r with
  | addImport unit imported =>
    have hone : g.perform (.addImport unit imported) = g.addAll unit [imported] := rfl
    rw [hone, mem_neighbours_addAll_iff, List.mem_singleton, Request.Gives, Request.Drops,
      eq_comm (a := b)]
    tauto
  | replaceImports unit imported =>
    have hall : g.perform (.replaceImports unit imported) = (g.forget unit).addAll unit imported :=
      rfl
    rw [hall, mem_neighbours_addAll_iff, mem_neighbours_forget, Request.Gives, Request.Drops]
    tauto
  | forget unit =>
    rw [perform, mem_neighbours_forget, Request.Gives, Request.Drops]
    tauto
  | clear =>
    refine iff_of_false not_mem_neighbours_empty ?_
    rw [Request.Gives, Request.Drops]
    tauto

/-! ## Both tables -/

/-- **Both tables list the same imports**, none of a unit from itself, and no unit without
neighbours. -/
structure Mirrored (g : ImportGraph) : Prop extends g.Sound where
  irreflexive : ∀ u, u ∉ neighbours g.imports u
  listed : ∀ u r, g.imports.get? u = some r → r.isEmpty = false

theorem mirrored_empty : ({} : ImportGraph).Mirrored where
  toSound := sound_empty
  irreflexive _ := not_mem_neighbours_empty
  listed _ _ h := by cases h

theorem Sound.perform (h : g.Sound) (r : Request) : (g.perform r).Sound := by
  cases r with
  | addImport unit imported => exact h.addImport unit imported
  | replaceImports unit imported => exact (h.forget unit).addAll unit imported
  | forget unit => exact h.forget unit
  | clear => exact sound_empty

theorem listed_addAll (h : ∀ u r, g.imports.get? u = some r → r.isEmpty = false)
    (u : String) (vs : List String) :
    ∀ k r, (g.addAll u vs).imports.get? k = some r → r.isEmpty = false := by
  refine List.foldlRecOn
    (motive := fun g : ImportGraph => ∀ k r, g.imports.get? k = some r → r.isEmpty = false)
    vs _ h fun g' hg' v _ k r hr => ?_
  rw [ImportGraph.addImport] at hr
  split_ifs at hr
  · exact hg' k r hr
  · change (link g'.imports u v).get? k = some r at hr
    rw [get?_link] at hr
    split_ifs at hr
    · cases hr
      exact Roster.isEmpty_insert _ _
    · exact hg' k r hr

theorem listed_forget (h : ∀ u r, g.imports.get? u = some r → r.isEmpty = false) (u : String) :
    ∀ k r, (g.forget u).imports.get? k = some r → r.isEmpty = false := by
  intro k r hr
  rw [get?_imports_forget] at hr
  split_ifs at hr
  exact h k r hr

/-- **Every request keeps the tables in step.** -/
theorem Mirrored.perform (h : g.Mirrored) (r : Request) : (g.perform r).Mirrored where
  toSound := h.toSound.perform r
  irreflexive u hu := by
    rcases mem_neighbours_perform.mp hu with ⟨-, hne⟩ | ⟨-, hu⟩
    · exact hne rfl
    · exact h.irreflexive u hu
  listed := by
    cases r with
    | addImport unit imported => exact listed_addAll h.listed unit [imported]
    | replaceImports unit imported =>
      exact listed_addAll (listed_forget h.listed unit) unit imported
    | forget unit => exact listed_forget h.listed unit
    | clear => exact mirrored_empty.listed

theorem mirrored_run (rs : List Request) : (run rs).Mirrored :=
  List.foldlRecOn (motive := Mirrored) rs _ mirrored_empty fun _ hg r _ => hg.perform r

theorem mem_keys_iff (h : ∀ u r, t.get? u = some r → r.isEmpty = false) :
    u ∈ t.keys ↔ ∃ v, v ∈ neighbours t u := by
  constructor
  · intro hu
    obtain ⟨r, hr⟩ := Table.mem_keys.mp hu
    obtain ⟨v, hv⟩ := List.exists_mem_of_ne_nil _ (List.isEmpty_eq_false_iff.mp (h u r hr))
    exact ⟨v, by rw [neighbours_of_get? hr]; exact hv⟩
  · rintro ⟨v, hv⟩
    exact mem_keys_of_mem_neighbours hv

theorem mem_importsOf : b ∈ g.importsOf a ↔ b ∈ neighbours g.imports a := Text.mem_sortNames

theorem mem_importersOf : b ∈ g.importersOf a ↔ b ∈ neighbours g.importers a := Text.mem_sortNames

/-- The unit has an import or an importer. -/
def HasEdge (g : ImportGraph) (u : String) : Prop :=
  ∃ v, v ∈ g.importsOf u ∨ v ∈ g.importersOf u

/-- **The units of the graph** are those with an import or an importer. -/
theorem Mirrored.mem_units_iff (h : g.Mirrored) : u ∈ g.units ↔ g.HasEdge u := by
  simp only [units, Roster.mem_ofList, List.mem_append, mem_keys_iff h.listed,
    mem_keys_iff h.filled, HasEdge, mem_importsOf, mem_importersOf, exists_or]

theorem contains_iff_mem_units : g.contains u = true ↔ u ∈ g.units := by
  rw [contains, Bool.or_eq_true, Table.contains_iff, Table.contains_iff, units, Roster.mem_ofList,
    List.mem_append]

/-! ## After any requests -/

/-- `b` was given to `a` as an import, and what `a` imports has not been dropped since. -/
def Lasts (a b : String) (rs : List Request) : Prop :=
  ∃ before r after, rs = before ++ r :: after ∧ r.Gives a b ∧ ∀ s ∈ after, ¬s.Drops a

theorem lasts_concat :
    Lasts a b (rs ++ [r]) ↔ r.Gives a b ∨ (¬r.Drops a ∧ Lasts a b rs) := by
  constructor
  · rintro ⟨before, s, after, hrs, hs, hafter⟩
    rcases List.eq_nil_or_concat after with rfl | ⟨after, q, rfl⟩
    · obtain ⟨-, rfl⟩ := List.concat_inj.mp (by simpa using hrs)
      exact .inl hs
    · rw [List.concat_eq_append, List.forall_mem_append, List.forall_mem_singleton] at hafter
      have hsplit : rs.concat r = (before ++ s :: after).concat q := by simpa using hrs
      obtain ⟨rfl, rfl⟩ := List.concat_inj.mp hsplit
      exact .inr ⟨hafter.2, before, s, after, rfl, hs, hafter.1⟩
  · rintro (hr | ⟨hr, before, s, after, rfl, hs, hafter⟩)
    · exact ⟨rs, r, [], rfl, hr, by simp⟩
    · refine ⟨before, s, after ++ [r], by simp, hs, ?_⟩
      rw [List.forall_mem_append, List.forall_mem_singleton]
      exact ⟨hafter, hr⟩

/-- **Who imports whom after the requests**: what was given last and not dropped since. -/
theorem mem_neighbours_run :
    b ∈ neighbours (run rs).imports a ↔ b ≠ a ∧ Lasts a b rs := by
  induction rs using List.reverseRecOn with
  | nil =>
    refine iff_of_false not_mem_neighbours_empty ?_
    rintro ⟨-, before, s, after, hnil, -⟩
    simp at hnil
  | append_singleton rs r ih =>
    rw [run_concat, mem_neighbours_perform, ih, lasts_concat]
    tauto

/-- **What is found after these requests.** -/
structure Tells (rs : List Request) : Prop where
  /-- Both directions say the same. -/
  mirror : ∀ a b, b ∈ (run rs).importsOf a ↔ a ∈ (run rs).importersOf b
  irreflexive : ∀ a, a ∉ (run rs).importsOf a
  /-- No table lists a unit without neighbours. -/
  imports_filled : ∀ u r, (run rs).imports.get? u = some r → r.toList ≠ []
  importers_filled : ∀ u r, (run rs).importers.get? u = some r → r.toList ≠ []
  /-- Exactly the units with an import or an importer are there, and are counted. -/
  contains_iff : ∀ u, (run rs).contains u = true ↔ (run rs).HasEdge u
  count : ∀ us : List String, us.Nodup → (∀ u, u ∈ us ↔ (run rs).HasEdge u) →
    (run rs).units.size = us.length
  /-- A unit imports what it was given since its imports were dropped last. -/
  imported : ∀ a b, b ∈ (run rs).importsOf a ↔ b ≠ a ∧ Lasts a b rs
  /-- The affected units are the others from which a path along imports leads to the unit. -/
  affected : ∀ u v, v ∈ (run rs).affected u ↔ v ≠ u ∧ Reaches (run rs).importsOf v u
  /-- Every answer is in ascending order, each name once. -/
  ascending : ∀ u, Text.IsAscending ((run rs).importsOf u) ∧
    Text.IsAscending ((run rs).importersOf u) ∧ Text.IsAscending ((run rs).affected u)

/-- **The graph of units keeps imports in both directions** and finds all that a change affects,
after any requests, in graphs with cycles too. -/
theorem tells_run (rs : List Request) : Tells rs := by
  have hg := mirrored_run rs
  have hmirror : ∀ a b, b ∈ (run rs).importsOf a ↔ b ∈ neighbours (run rs).imports a :=
    fun _ _ => mem_importsOf
  exact
    { mirror := fun a b => by rw [mem_importsOf, mem_importersOf, hg.mirror]
      irreflexive := fun a ha => hg.irreflexive a (mem_importsOf.mp ha)
      imports_filled := fun u r hr => List.isEmpty_eq_false_iff.mp (hg.listed u r hr)
      importers_filled := fun u r hr => List.isEmpty_eq_false_iff.mp (hg.filled u r hr)
      contains_iff := fun u => contains_iff_mem_units.trans hg.mem_units_iff
      count := fun us hus hmem => by
        refine ((List.perm_ext_iff_of_nodup (run rs).units.nodup hus).mpr fun u => ?_).length_eq
        exact hg.mem_units_iff.trans (hmem u).symm
      imported := fun a b => by rw [mem_importsOf, mem_neighbours_run]
      affected := fun u v => by
        rw [hg.mem_affected_iff, and_comm]
        refine and_congr_right fun _ => ⟨fun h => h.reverse fun v w hw => ?_,
          fun h => h.reverse fun v w hw => ?_⟩
        · exact mem_importsOf.mpr ((hg.mirror w v).mpr hw)
        · exact (hg.mirror v w).mp (mem_importsOf.mp hw)
      ascending := fun u => ⟨Text.isAscending_sortNames (Roster.nodup _),
        Text.isAscending_sortNames (Roster.nodup _), Text.isAscending_sortNames (Roster.nodup _)⟩ }

end ImportGraph

end Bindery
