import Mathlib.Tactic.SplitIfs
import Bindery.Graph.Imports
import Bindery.Proofs.Roster
import Bindery.Proofs.Table

/-!
# What is forgotten of the graph of units

* `ImportGraph.Sound`: both tables say the same, and no unit is listed without neighbours; every
  change keeps it.
* `ImportGraph.addAll`: a unit refers to declarations of several others.
* **`ImportGraph.forget_addAll`**: a unit that imported nothing before can be forgotten again.
-/

namespace Bindery.ImportGraph

variable {t : Table (Roster String)} {u v w a b : String}

/-! ## One neighbour -/

theorem neighbours_of_get? {r : Roster String} (h : t.get? u = some r) : neighbours t u = r := by
  rw [neighbours, h, Option.getD_some]

/-- Who is a neighbour already need not be added. -/
theorem link_of_mem (h : v ∈ neighbours t u) : link t u v = t := by
  cases hr : t.get? u with
  | none =>
    rw [neighbours, hr] at h
    exact absurd h (Roster.not_mem_empty v)
  | some r =>
    rw [neighbours_of_get? hr] at h
    rw [link, neighbours_of_get? hr, Roster.insert_of_mem h, Table.insert_of_get? hr]

theorem unlink_of_none (h : t.get? u = none) : unlink t u v = t := by
  rw [unlink, h]

theorem unlink_of_some {r : Roster String} (h : t.get? u = some r) : unlink t u v =
    if (r.erase v).isEmpty then t.erase u else t.insert u (r.erase v) := by
  rw [unlink, h]

theorem neighbours_congr {t' : Table (Roster String)} (h : t'.get? u = t.get? u) :
    neighbours t' u = neighbours t u := by
  rw [neighbours, h, neighbours]

theorem get?_link (a : String) : (link t u v).get? a =
    if a = u then some ((neighbours t u).insert v) else t.get? a := Table.get?_insert _ _ _ _

theorem get?_unlink (a : String) : (unlink t u v).get? a =
    if a = u then ((t.get? u).map (·.erase v)).filter (!·.isEmpty) else t.get? a := by
  cases hr : t.get? u with
  | none =>
    rw [unlink_of_none hr]
    split_ifs with ha
    · rw [ha, hr]
      rfl
    · rfl
  | some r =>
    rw [unlink_of_some hr, Option.map_some, Option.filter_some]
    by_cases he : (r.erase v).isEmpty = true
    · simp [he, Table.get?_erase]
    · simp [he, Table.get?_insert]

theorem mem_neighbours_erase : b ∈ neighbours (t.erase u) a ↔ b ∈ neighbours t a ∧ a ≠ u := by
  rw [neighbours, Table.get?_erase]
  by_cases ha : a = u <;> simp [neighbours, ha]

theorem mem_neighbours_unlink :
    b ∈ neighbours (unlink t u v) a ↔ b ∈ neighbours t a ∧ ¬(a = u ∧ b = v) := by
  by_cases ha : a = u
  · subst ha
    rw [neighbours, get?_unlink, if_pos rfl, neighbours]
    cases t.get? a with
    | none => simp
    | some r =>
      have herase : b ∈ r.erase v ↔ b ∈ r ∧ b ≠ v := Roster.mem_erase
      have hkeep : b ∈ (((some r).map (·.erase v)).filter (!·.isEmpty)).getD Roster.empty ↔
          b ∈ r.erase v := by
        rw [Option.map_some, Option.filter_some]
        by_cases he : (r.erase v).isEmpty = true
        · have hnil : (r.erase v).toList = [] := List.isEmpty_iff.mp he
          simp [he, Roster.mem_def, hnil, Roster.empty]
        · simp [he]
      rw [hkeep, herase, Option.getD_some]
      simp
  · have hsame : neighbours (unlink t u v) a = neighbours t a :=
      neighbours_congr (by rw [get?_unlink, if_neg ha])
    rw [hsame]
    simp [ha]

/-- A new neighbour can be taken away again. -/
theorem unlink_link (hv : v ∉ neighbours t u) (ht : ∀ r, t.get? u = some r → r.isEmpty = false) :
    unlink (link t u v) u v = t := by
  have hget : (link t u v).get? u = some ((neighbours t u).insert v) := by
    rw [get?_link, if_pos rfl]
  rw [unlink_of_some hget, Roster.erase_insert hv, link]
  cases hr : t.get? u with
  | none =>
    rw [neighbours, hr]
    exact Table.erase_insert (Table.get?_eq_none_iff.mp hr)
  | some r =>
    rw [neighbours_of_get? hr, if_neg (by simp [ht r hr]), Table.insert_insert,
      Table.insert_of_get? hr]

/-- Neighbours of different units are added and taken away in either order. -/
theorem unlink_link_comm (h : w ≠ u) :
    unlink (link t w v) u v = link (unlink t u v) w v := by
  have hget : (link t w v).get? u = t.get? u := by rw [get?_link, if_neg (Ne.symm h)]
  have hsame : neighbours (unlink t u v) w = neighbours t w :=
    neighbours_congr (by rw [get?_unlink, if_neg h])
  rw [link, link, hsame, ← link]
  cases hr : t.get? u with
  | none => rw [unlink_of_none hr, unlink_of_none (hget.trans hr), link]
  | some r =>
    rw [unlink_of_some hr, unlink_of_some (hget.trans hr), link]
    split_ifs
    · rw [Table.erase_insert_comm h]
    · rw [Table.insert_insert_comm (Ne.symm h) (Table.mem_keys.mpr ⟨r, hr⟩)]

/-! ## Several neighbours -/

/-- A unit becomes a neighbour of several others. -/
def linkAll (t : Table (Roster String)) (us : List String) (v : String) : Table (Roster String) :=
  us.foldl (fun t u => link t u v) t

/-- A unit is a neighbour of several others no more. -/
def unlinkAll (t : Table (Roster String)) (us : List String) (v : String) :
    Table (Roster String) :=
  us.foldl (fun t u => unlink t u v) t

theorem mem_neighbours_linkAll (us : List String) :
    b ∈ neighbours (linkAll t us v) a ↔ b ∈ neighbours t a ∨ a ∈ us ∧ b = v := by
  induction us generalizing t with
  | nil => simp [linkAll]
  | cons u us ih =>
    refine ih.trans ?_
    rw [mem_neighbours_link, List.mem_cons]
    tauto

theorem mem_neighbours_unlinkAll (us : List String) :
    b ∈ neighbours (unlinkAll t us v) a ↔ b ∈ neighbours t a ∧ ¬(a ∈ us ∧ b = v) := by
  induction us generalizing t with
  | nil => simp [unlinkAll]
  | cons u us ih =>
    refine ih.trans ?_
    rw [mem_neighbours_unlink, List.mem_cons]
    tauto

theorem unlink_linkAll_comm {us : List String} (h : u ∉ us) :
    unlink (linkAll t us v) u v = linkAll (unlink t u v) us v := by
  induction us generalizing t with
  | nil => rfl
  | cons w us ih =>
    rw [List.mem_cons, not_or] at h
    rw [linkAll, List.foldl_cons, ← linkAll, ih h.2, unlink_link_comm (Ne.symm h.1)]
    rfl

theorem unlinkAll_linkAll {us : List String} (hn : us.Nodup)
    (hv : ∀ u ∈ us, v ∉ neighbours t u)
    (ht : ∀ u r, t.get? u = some r → r.isEmpty = false) :
    unlinkAll (linkAll t us v) us v = t := by
  induction us with
  | nil => rfl
  | cons u us ih =>
    rw [List.nodup_cons] at hn
    rw [List.forall_mem_cons] at hv
    rw [unlinkAll, List.foldl_cons, linkAll, List.foldl_cons, ← linkAll, unlink_linkAll_comm hn.1,
      unlink_link hv.1 (ht u)]
    exact ih hn.2 hv.2

/-! ## Graphs -/

variable {g : ImportGraph}

/-- **Both tables say the same**, and no unit is listed as imported by nobody. -/
structure Sound (g : ImportGraph) : Prop where
  mirror : ∀ a b, b ∈ neighbours g.imports a ↔ a ∈ neighbours g.importers b
  filled : ∀ u r, g.importers.get? u = some r → r.isEmpty = false

theorem sound_empty : ({} : ImportGraph).Sound :=
  ⟨fun a b => iff_of_false (Roster.not_mem_empty b) (Roster.not_mem_empty a),
    fun u r h => by cases h⟩

theorem Sound.addImport (h : g.Sound) (u v : String) : (g.addImport u v).Sound := by
  unfold ImportGraph.addImport
  split_ifs
  · exact h
  · refine ⟨fun a b => ?_, fun k r hr => ?_⟩
    · rw [mem_neighbours_link, mem_neighbours_link, h.mirror a b, and_comm (a := a = u)]
    · change (link g.importers v u).get? k = some r at hr
      rw [get?_link] at hr
      split_ifs at hr
      · cases hr
        exact Roster.isEmpty_insert _ _
      · exact h.filled k r hr

theorem filled_unlinkAll {us : List String}
    (h : ∀ u r, t.get? u = some r → r.isEmpty = false) :
    ∀ u r, (unlinkAll t us v).get? u = some r → r.isEmpty = false := by
  induction us generalizing t with
  | nil => exact h
  | cons w us ih =>
    refine ih fun u r hr => ?_
    change (unlink t w v).get? u = some r at hr
    rw [get?_unlink] at hr
    split_ifs at hr
    · simpa using (Option.filter_eq_some_iff.mp hr).2
    · exact h u r hr

theorem forget_of_none (h : g.imports.get? u = none) : g.forget u = g := by
  rw [forget, h]

theorem forget_of_some {r : Roster String} (h : g.imports.get? u = some r) :
    g.forget u = ⟨g.imports.erase u, unlinkAll g.importers r.toList u⟩ := by
  rw [forget, h]
  rfl

theorem Sound.forget (h : g.Sound) (u : String) : (g.forget u).Sound := by
  cases hr : g.imports.get? u with
  | none => rwa [forget_of_none hr]
  | some r =>
    rw [forget_of_some hr]
    refine ⟨fun a b => ?_, filled_unlinkAll h.filled⟩
    have hmem : b ∈ r.toList ↔ b ∈ neighbours g.imports u := by
      rw [neighbours_of_get? hr]
      exact Iff.rfl
    rw [mem_neighbours_erase, mem_neighbours_unlinkAll, h.mirror a b, hmem, h.mirror u b]
    refine and_congr_right fun ha => ⟨fun hne hc => hne hc.2, fun hno he => hno ⟨he ▸ ha, he⟩⟩

/-- A unit that is known to import nothing has no neighbours that it imports. -/
theorem Sound.not_mem_importers (h : g.Sound) (hu : g.imports.get? u = none) (v : String) :
    u ∉ neighbours g.importers v := fun hm => by
  have hv := (h.mirror u v).mpr hm
  rw [neighbours, hu] at hv
  exact Roster.not_mem_empty v hv

theorem get?_imports_forget (u k : String) : (g.forget u).imports.get? k =
    if k = u then none else g.imports.get? k := by
  cases hr : g.imports.get? u with
  | none =>
    rw [forget_of_none hr]
    split_ifs with hk
    · rw [hk, hr]
    · rfl
  | some r => rw [forget_of_some hr, Table.get?_erase]

/-! ## Forgetting what was added -/

/-- `u` refers to declarations of each unit of a list. -/
def addAll (g : ImportGraph) (u : String) (vs : List String) : ImportGraph :=
  vs.foldl (fun g v => g.addImport u v) g

theorem addAll_append (g : ImportGraph) (u : String) (vs ws : List String) :
    g.addAll u (vs ++ ws) = (g.addAll u vs).addAll u ws := List.foldl_append

theorem Sound.addAll (h : g.Sound) (u : String) (vs : List String) : (g.addAll u vs).Sound :=
  List.foldlRecOn (motive := Sound) vs _ h fun _ hg v _ => hg.addImport u v

theorem get?_imports_addAll (vs : List String) {k : String} (hk : k ≠ u) :
    (g.addAll u vs).imports.get? k = g.imports.get? k := by
  refine List.foldlRecOn (motive := fun g' : ImportGraph => g'.imports.get? k = g.imports.get? k)
    vs _ rfl fun g' hg v _ => ?_
  rw [ImportGraph.addImport]
  split_ifs
  · exact hg
  · exact (Table.get?_insert _ _ _ _).trans ((if_neg hk).trans hg)

/-- What a graph looks like after a unit has come to import others. -/
structure Grows (g : ImportGraph) (u : String) (g' : ImportGraph) : Prop where
  imports : g'.imports.erase u = g.imports
  importers : g'.importers = linkAll g.importers (neighbours g'.imports u).toList u

theorem Grows.addImport {g' : ImportGraph} (h : g.Grows u g') (v : String) :
    g.Grows u (g'.addImport u v) := by
  unfold ImportGraph.addImport
  split_ifs
  · exact h
  by_cases hv : v ∈ neighbours g'.imports u
  · -- The import is there already, so that neither table changes.
    have hu : u ∈ neighbours g'.importers v := by
      rw [h.importers, mem_neighbours_linkAll]
      exact .inr ⟨hv, rfl⟩
    rw [link_of_mem hv, link_of_mem hu]
    exact h
  · have hnew : (neighbours (link g'.imports u v) u).toList =
        (neighbours g'.imports u).toList ++ [v] := by
      rw [neighbours_of_get? (by rw [get?_link, if_pos rfl]), Roster.toList_insert,
        if_neg hv]
    refine ⟨?_, ?_⟩
    · rw [← h.imports, link]
      refine Table.ext_get? ?_ fun k => ?_
      · rw [Table.keys_erase, Table.keys_erase, Table.keys_insert]
        split_ifs
        · rfl
        · rw [List.filter_append]
          simp
      · rw [Table.get?_erase, Table.get?_insert, Table.get?_erase]
        split_ifs <;> rfl
    · show link g'.importers v u = _
      rw [hnew, h.importers, linkAll, linkAll, List.foldl_append]
      rfl

/-- **A unit that imported nothing before** can be forgotten again. -/
theorem forget_addAll (h : g.Sound) (hu : g.imports.get? u = none) (vs : List String) :
    (g.addAll u vs).forget u = g := by
  have herase : g.imports.erase u = g.imports :=
    Table.erase_of_not_mem (Table.get?_eq_none_iff.mp hu)
  have hnone : neighbours g.imports u = Roster.empty := by rw [neighbours, hu, Option.getD_none]
  have hgrows : g.Grows u (g.addAll u vs) :=
    List.foldlRecOn (motive := g.Grows u) vs _ ⟨herase, by rw [hnone]; rfl⟩
      fun _ hg v _ => hg.addImport v
  generalize g.addAll u vs = g' at hgrows
  obtain ⟨imports, importers⟩ := g'
  obtain ⟨himports, himporters⟩ := hgrows
  cases hr : imports.get? u with
  | none =>
    rw [forget_of_none hr]
    rw [Table.erase_of_not_mem (Table.get?_eq_none_iff.mp hr)] at himports
    have hempty : neighbours imports u = Roster.empty := by rw [neighbours, hr, Option.getD_none]
    rw [hempty] at himporters
    exact congrArg₂ ImportGraph.mk himports himporters
  | some r =>
    rw [neighbours_of_get? hr] at himporters
    rw [forget_of_some hr, himports, himporters,
      unlinkAll_linkAll r.nodup (fun v _ => h.not_mem_importers hu v) h.filled]

end Bindery.ImportGraph
