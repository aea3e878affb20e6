import Mathlib.Data.List.Induction
import Mathlib.Data.List.Perm.Subperm
import Bindery.Proofs.Store.Arena

/-!
# The ids that an arena has handed out

What an id finds can be read off what has been asked of the arena: the value that was put in when
the id was handed out, with the changes since, until the value is taken out, and nothing from then
on. As long as no cell has been vacated so often that its generations repeat, no id is handed out
twice.

* `Arena.generation`: the generations of the cells after each operation.
* `Arena.Request`, `Arena.run`: operations in turn.
* `Arena.issued`, `Arena.withdrawn`: the ids that were handed out, and those whose values were taken
  out.
* `Arena.Tracks`: how cells, ids and the number of values belong together.
* **`Arena.Tracks.insert`**, **`Arena.Tracks.remove`**, `Arena.Tracks.perform`: every operation
  keeps this.
* `Arena.IsMap`: what is found after the operations.
* **`Arena.isMap_run`**: this is found unless generations repeat.
-/

namespace Bindery.Arena

variable {α : Type} {a : Arena α} {id : SymbolId} {v : α}

/-! ## Generations -/

/-- The generation of a cell, 0 for one that is not there yet. -/
def generation (a : Arena α) (i : Nat) : Nat :=
  (a.cells[i]?.map fun c => c.generation.toNat).getD 0

theorem generation_of_get? (h : a.get? id = some v) :
    a.generation id.index = id.generation.toNat := by
  rw [generation, get?_eq_some_iff.mp h]
  rfl

theorem generation_fresh (h : a.Sound) (v : α) :
    a.generation (a.insert v).2.index = (a.insert v).2.generation.toNat := by
  unfold insert
  split
  · simp [push, generation]
  · rename_i i free hf
    obtain ⟨g, hg⟩ := h.vacant i (by rw [hf]; exact List.mem_cons_self)
    simp [hg, generation]

theorem generation_insert (h : a.Sound) (v : α) (i : Nat) :
    (a.insert v).1.generation i = a.generation i := by
  unfold insert
  split
  · simp only [push, generation, Array.getElem?_push]
    by_cases hi : i = a.cells.size
    · simp [hi]
    · simp [hi]
  · rename_i k free hf
    obtain ⟨g, hg⟩ := h.vacant k (by rw [hf]; exact List.mem_cons_self)
    have hlt : k < a.cells.size := (Array.getElem?_eq_some_iff.mp hg).1
    simp only [hg, generation, Array.getElem?_setIfInBounds]
    by_cases hi : k = i
    · subst hi
      rw [if_pos rfl, if_pos hlt, hg]
      rfl
    · rw [if_neg hi]

theorem generation_remove (h : a.get? id = some v) (i : Nat) : (a.remove id).1.generation i =
    if i = id.index then (id.generation + 1).toNat else a.generation i := by
  have hlt : id.index < a.cells.size :=
    (Array.getElem?_eq_some_iff.mp (get?_eq_some_iff.mp h)).1
  simp only [remove, h, generation, Array.getElem?_setIfInBounds]
  by_cases hi : i = id.index
  · simp [hi, hlt]
  · simp [hi, Ne.symm hi]

theorem generation_modify (a : Arena α) (id : SymbolId) (f : α → α) (i : Nat) :
    (a.modify id f).generation i = a.generation i := by
  simp only [modify, generation, Array.getElem?_modify]
  by_cases hi : id.index = i
  · cases a.cells[i]? with
    | none => simp [hi]
    | some c =>
      rw [if_pos hi, Option.map_some, Option.map_some]
      split_ifs <;> rfl
  · simp [hi]

/-! ## Operations in turn -/

/-- What is asked of an arena. -/
inductive Request (α : Type) where
  | insert (value : α)
  | get (id : SymbolId)
  | modify (id : SymbolId) (f : α → α)
  | remove (id : SymbolId)

/-- A request is carried out. -/
def perform (a : Arena α) : Request α → Arena α
  | .insert value => (a.insert value).1
  | .get _ => a
  | .modify id f => a.modify id f
  | .remove id => (a.remove id).1

/-- The arena after requests, from the beginning. -/
def run (rs : List (Request α)) : Arena α := rs.foldl perform {}

theorem run_concat (rs : List (Request α)) (r : Request α) :
    run (rs ++ [r]) = (run rs).perform r := by
  rw [run, List.foldl_append]
  rfl

/-- The id that a request hands out. -/
def issue? (a : Arena α) : Request α → Option SymbolId
  | .insert value => some (a.insert value).2
  | _ => none

/-- The id whose value a request takes out. -/
def withdraw? (a : Arena α) : Request α → Option SymbolId
  | .remove id => (a.remove id).2.map fun _ => id
  | _ => none

/-- What is said of the requests, each asked of the arena that the ones before it have left. -/
def report (f : Arena α → Request α → Option SymbolId) (a : Arena α) :
    List (Request α) → List SymbolId
  | [] => []
  | r :: rs => (f a r).toList ++ report f (a.perform r) rs

/-- The ids that were handed out, in order. -/
def issued (rs : List (Request α)) : List SymbolId := report issue? {} rs

/-- The ids whose values were taken out, in order. -/
def withdrawn (rs : List (Request α)) : List SymbolId := report withdraw? {} rs

/-- How often a cell has been vacated, if the values of these ids were taken out. -/
def vacated (ids : List SymbolId) (i : Nat) : Nat := (ids.filter (·.index = i)).length

/-- What a request makes of the value of an id. -/
def Request.change (id : SymbolId) (v : α) : Request α → α
  | modify k f => if k = id then f v else v
  | _ => v

section Report

variable {f : Arena α → Request α → Option SymbolId} {rs rs' : List (Request α)} {r : Request α}

theorem report_append (a : Arena α) :
    report f a (rs ++ rs') = report f a rs ++ report f (rs.foldl perform a) rs' := by
  induction rs generalizing a with
  | nil => rfl
  | cons r rs ih =>
    rw [List.cons_append, report, ih, report, List.append_assoc]
    rfl

theorem report_concat : report f {} (rs ++ [r]) = report f {} rs ++ (f (run rs) r).toList := by
  rw [report_append, report, report, List.append_nil]
  rfl

theorem mem_report : id ∈ report f {} rs ↔
    ∃ before r after, rs = before ++ r :: after ∧ f (run before) r = some id := by
  induction rs using List.reverseRecOn with
  | nil => simp [report]
  | append_singleton rs r ih =>
    rw [report_concat, List.mem_append, ih, Option.mem_toList]
    constructor
    · rintro (⟨before, r', after, rfl, h⟩ | h)
      · exact ⟨before, r', after ++ [r], by simp, h⟩
      · exact ⟨rs, r, [], rfl, h⟩
    · rintro ⟨before, r', after, h, hf⟩
      rcases List.eq_nil_or_concat after with rfl | ⟨after, r'', rfl⟩
      · obtain ⟨rfl, hr⟩ := List.append_inj' h rfl
        cases hr
        exact .inr hf
      · rw [List.concat_eq_append, ← List.cons_append, ← List.append_assoc] at h
        obtain ⟨rfl, -⟩ := List.append_inj' h rfl
        exact .inl ⟨before, r', after, rfl, hf⟩

end Report

/-! ## What the arena keeps track of -/

theorem vacated_concat (ids : List SymbolId) (id : SymbolId) (i : Nat) :
    vacated (ids ++ [id]) i = vacated ids i + if id.index = i then 1 else 0 := by
  rw [vacated, List.filter_append, List.length_append, ← vacated]
  by_cases hi : id.index = i <;> simp [hi]

theorem vacated_append_le (ids ids' : List SymbolId) (i : Nat) :
    vacated ids i ≤ vacated (ids ++ ids') i := by
  rw [vacated, vacated, List.filter_append, List.length_append]
  exact Nat.le_add_right _ _

/-- **The ids `given` were handed out, and the values of `gone` were taken out.** -/
structure Tracks (a : Arena α) (given gone : List SymbolId) : Prop where
  sound : a.Sound
  generation : ∀ i, a.generation i = vacated gone i
  given_iff : ∀ id, id ∈ given ↔ id ∈ gone ∨ (a.get? id).isSome = true
  /-- An id whose value was taken out is of an earlier generation. -/
  outdated : ∀ id ∈ gone, id.generation.toNat < vacated gone id.index
  nodup_given : given.Nodup
  nodup_gone : gone.Nodup
  count : a.count + gone.length = given.length

namespace Tracks

variable {given gone : List SymbolId}

theorem empty : Tracks ({} : Arena α) [] [] where
  sound := sound_empty
  generation _ := rfl
  given_iff id := by simp [get?]
  outdated _ h := absurd h List.not_mem_nil
  nodup_given := List.nodup_nil
  nodup_gone := List.nodup_nil
  count := rfl

theorem not_mem_gone (h : Tracks a given gone)
    (hid : a.generation id.index = id.generation.toNat) : id ∉ gone := fun hm => by
  have hlt := h.outdated id hm
  rw [← h.generation, hid] at hlt
  exact Nat.lt_irrefl _ hlt

theorem get?_of_mem_gone (h : Tracks a given gone) (hid : id ∈ gone) : a.get? id = none := by
  cases hv : a.get? id with
  | none => rfl
  | some v => exact absurd hid (h.not_mem_gone (generation_of_get? hv))

/-- **A newcomer gets an id that was never handed out.** -/
theorem fresh (h : Tracks a given gone) (v : α) : (a.insert v).2 ∉ given := by
  rw [h.given_iff, not_or]
  refine ⟨h.not_mem_gone (generation_fresh h.sound v), ?_⟩
  rw [get?_insert_fresh h.sound v]
  exact Bool.false_ne_true

theorem insert (h : Tracks a given gone) (v : α) :
    Tracks (a.insert v).1 (given ++ [(a.insert v).2]) gone where
  sound := h.sound.insert v
  generation i := by rw [generation_insert h.sound, h.generation]
  given_iff id := by
    rw [List.mem_append, List.mem_singleton, h.given_iff, get?_insert h.sound, or_assoc]
    by_cases hid : id = (a.insert v).2 <;> simp [hid]
  outdated := h.outdated
  nodup_given := by
    rw [← List.concat_eq_append]
    exact h.nodup_given.concat (h.fresh v)
  nodup_gone := h.nodup_gone
  count := by
    have := h.count
    rw [count_insert, List.length_append, List.length_singleton]
    omega

/-- **A value is taken out** of a cell whose next generation is not 0 again. -/
theorem remove (h : Tracks a given gone) (hv : a.get? id = some v)
    (hbound : vacated gone id.index + 1 < UInt32.size) :
    Tracks (a.remove id).1 given (gone ++ [id]) := by
  have hgen := generation_of_get? hv
  have hnew : id ∉ gone := h.not_mem_gone hgen
  have hnext : (id.generation + 1).toNat = vacated gone id.index + 1 := by
    rw [UInt32.toNat_add, ← hgen, h.generation]
    exact Nat.mod_eq_of_lt hbound
  have hnodup : (gone ++ [id]).Nodup := by
    rw [← List.concat_eq_append]
    exact h.nodup_gone.concat hnew
  have hgiven : id ∈ given := (h.given_iff id).mpr (.inr (by rw [hv]; rfl))
  refine ⟨h.sound.remove id, fun i => ?_, fun k => ?_, fun k hk => ?_, h.nodup_given, hnodup, ?_⟩
  · rw [generation_remove hv, vacated_concat]
    by_cases hi : i = id.index
    · rw [if_pos hi, if_pos hi.symm, hi, hnext]
    · rw [if_neg hi, if_neg (Ne.symm hi), h.generation, Nat.add_zero]
  · rw [List.mem_append, List.mem_singleton, h.given_iff, get?_remove]
    by_cases hk : k = id <;> simp [hk, hv]
  · rcases List.mem_append.mp hk with hk | hk
    · exact Nat.lt_of_lt_of_le (h.outdated k hk) (vacated_append_le _ _ _)
    · rw [List.mem_singleton.mp hk, vacated_concat, if_pos rfl, ← h.generation, hgen]
      exact Nat.lt_succ_self _
  · -- There are more ids than values that were taken out.
    have hle : (gone ++ [id]).length ≤ given.length :=
      (List.subperm_of_subset hnodup fun k hk => by
        rcases List.mem_append.mp hk with hk | hk
        · exact (h.given_iff k).mpr (.inl hk)
        · exact List.mem_singleton.mp hk ▸ hgiven).length_le
    have := h.count
    rw [count_remove (by rw [hv]; rfl)]
    rw [List.length_append, List.length_singleton] at hle ⊢
    omega

theorem modify (h : Tracks a given gone) (id : SymbolId) (f : α → α) :
    Tracks (a.modify id f) given gone where
  sound := h.sound.modify id f
  generation i := by rw [generation_modify, h.generation]
  given_iff k := by
    rw [h.given_iff, get?_modify]
    by_cases hk : k = id <;> simp [hk]
  outdated := h.outdated
  nodup_given := h.nodup_given
  nodup_gone := h.nodup_gone
  count := h.count

theorem perform (h : Tracks a given gone) (r : Request α)
    (hbound : ∀ i, vacated (gone ++ (a.withdraw? r).toList) i < UInt32.size) :
    Tracks (a.perform r) (given ++ (a.issue? r).toList) (gone ++ (a.withdraw? r).toList) := by
  cases r with
  | insert v => simpa [Arena.perform, issue?, withdraw?] using h.insert v
  | get id => simpa [Arena.perform, issue?, withdraw?] using h
  | modify id f => simpa [Arena.perform, issue?, withdraw?] using h.modify id f
  | remove id =>
    cases hv : a.get? id with
    | none =>
      have hsame : (a.remove id).1 = a := by
        rw [Arena.remove, hv]
      simpa [Arena.perform, issue?, withdraw?, snd_remove, hv, hsame] using h
    | some v =>
      have hw : (a.withdraw? (.remove id)).toList = [id] := by
        simp [withdraw?, snd_remove, hv]
      have hlt := hbound id.index
      rw [hw, vacated_concat, if_pos rfl] at hlt
      rw [hw]
      simpa [Arena.perform, issue?] using h.remove hv hlt

/-- The ids that were handed out are those in use and those whose values were taken out. -/
theorem count_eq (h : Tracks a given gone) : a.count = a.toList.length := by
  have hnodup : (gone ++ a.toList.map Prod.fst).Nodup := by
    refine List.nodup_append'.mpr ⟨h.nodup_gone, nodup_map_fst_toList a, fun k hk hlive => ?_⟩
    rw [mem_map_fst_toList, h.get?_of_mem_gone hk] at hlive
    cases hlive
  have hperm : (gone ++ a.toList.map Prod.fst).Perm given :=
    (List.perm_ext_iff_of_nodup hnodup h.nodup_given).mpr fun k => by
      rw [List.mem_append, mem_map_fst_toList, h.given_iff]
  have hlength := hperm.length_eq
  rw [List.length_append, List.length_map] at hlength
  have := h.count
  omega

theorem index_lt (h : Tracks a given gone) (hid : id ∈ given) : id.index < a.cells.size := by
  by_contra hge
  have hcell : a.cells[id.index]? = none := Array.getElem?_eq_none (Nat.le_of_not_lt hge)
  rcases (h.given_iff id).mp hid with hgone | hlive
  · have hzero : a.generation id.index = 0 := by
      rw [Arena.generation, hcell]
      rfl
    have hlt := h.outdated id hgone
    rw [← h.generation, hzero] at hlt
    exact Nat.not_lt_zero _ hlt
  · rw [get?, hcell] at hlive
    cases hlive

end Tracks

/-! ## What is found -/

section Run

variable {rs before after : List (Request α)} {r : Request α}

/-- **Every run is kept track of**, unless generations repeat. -/
theorem tracks_run (h : ∀ i, vacated (withdrawn rs) i < UInt32.size) :
    Tracks (run rs) (issued rs) (withdrawn rs) := by
  induction rs using List.reverseRecOn with
  | nil => exact Tracks.empty
  | append_singleton rs r ih =>
    rw [withdrawn, report_concat] at h ⊢
    rw [issued, report_concat, run_concat]
    refine (ih fun i => ?_).perform r h
    exact Nat.lt_of_le_of_lt (vacated_append_le _ _ i) (h i)

theorem Sound.perform (h : a.Sound) (r : Request α) : (a.perform r).Sound := by
  cases r with
  | insert v => exact h.insert v
  | get id => exact h
  | modify id f => exact h.modify id f
  | remove id => exact h.remove id

theorem sound_run (rs : List (Request α)) : (run rs).Sound := by
  induction rs using List.reverseRecOn with
  | nil => exact sound_empty
  | append_singleton rs r ih =>
    rw [run_concat]
    exact ih.perform r

/-- A value stays until it is taken out, and changes when it is asked to. -/
theorem get?_perform (h : a.Sound) (hv : a.get? id = some v) (hr : r ≠ .remove id) :
    (a.perform r).get? id = some (r.change id v) := by
  cases r with
  | insert w =>
    have hne : id ≠ (a.insert w).2 := fun hc => by
      rw [hc, get?_insert_fresh h] at hv
      cases hv
    rw [perform, get?_insert h, if_neg hne, hv]
    rfl
  | get k => exact hv
  | modify k f =>
    rw [perform, get?_modify, hv, Request.change]
    by_cases hk : id = k
    · rw [if_pos hk, if_pos hk.symm, Option.map_some]
    · rw [if_neg hk, if_neg (Ne.symm hk)]
  | remove k =>
    have hne : id ≠ k := fun hc => hr (hc ▸ rfl)
    rw [perform, get?_remove, if_neg hne, hv]
    rfl

theorem get?_run_append (hv : (run before).get? id = some v) (hno : .remove id ∉ after) :
    (run (before ++ after)).get? id = some (after.foldl (Request.change id) v) := by
  induction after using List.reverseRecOn with
  | nil => rwa [List.append_nil]
  | append_singleton after r ih =>
    rw [List.mem_append, not_or, List.mem_singleton] at hno
    rw [← List.append_assoc, run_concat, List.foldl_append]
    exact get?_perform (sound_run _) (ih hno.1) (Ne.symm hno.2)

theorem mem_issued : id ∈ issued rs ↔
    ∃ before v after, rs = before ++ .insert v :: after ∧ ((run before).insert v).2 = id := by
  rw [issued, mem_report]
  constructor
  · rintro ⟨before, r, after, hrs, h⟩
    cases r with
    | insert v => exact ⟨before, v, after, hrs, Option.some.inj h⟩
    | get k => cases h
    | modify k f => cases h
    | remove k => cases h
  · rintro ⟨before, v, after, hrs, rfl⟩
    exact ⟨before, .insert v, after, hrs, rfl⟩

theorem mem_withdrawn : id ∈ withdrawn rs ↔
    ∃ before after, rs = before ++ .remove id :: after ∧
      ((run before).get? id).isSome = true := by
  rw [withdrawn, mem_report]
  constructor
  · rintro ⟨before, r, after, hrs, h⟩
    cases r with
    | insert v => cases h
    | get k => cases h
    | modify k f => cases h
    | remove k =>
      rw [withdraw?, snd_remove, Option.map_eq_some_iff] at h
      obtain ⟨v, hv, rfl⟩ := h
      exact ⟨before, after, hrs, by rw [hv]; rfl⟩
  · rintro ⟨before, after, hrs, h⟩
    obtain ⟨v, hv⟩ := Option.isSome_iff_exists.mp h
    exact ⟨before, .remove id, after, hrs, by rw [withdraw?, snd_remove, hv]; rfl⟩

theorem vacated_lt_of_append (h : ∀ i, vacated (withdrawn (before ++ after)) i < UInt32.size)
    (i : Nat) : vacated (withdrawn before) i < UInt32.size := by
  have hi := h i
  rw [withdrawn, report_append] at hi
  exact Nat.lt_of_le_of_lt (vacated_append_le _ _ i) hi

/-- **A value is taken out once**: when this is asked for the first time after it was put in. -/
theorem mem_withdrawn_iff (h : ∀ i, vacated (withdrawn rs) i < UInt32.size) : id ∈ withdrawn rs ↔
    ∃ before v after, rs = before ++ .insert v :: after ∧ ((run before).insert v).2 = id ∧
      .remove id ∈ after := by
  constructor
  · intro hid
    obtain ⟨front, after, rfl, hlive⟩ := mem_withdrawn.mp hid
    have hgiven := ((tracks_run (vacated_lt_of_append h)).given_iff id).mpr (.inr hlive)
    obtain ⟨before, v, mid, rfl, hnew⟩ := mem_issued.mp hgiven
    exact ⟨before, v, mid ++ .remove id :: after, by simp, hnew, by simp⟩
  · rintro ⟨before, v, rest, rfl, hnew, hmem⟩
    obtain ⟨mid, after, rfl⟩ := List.append_of_mem hmem
    have hsplit : before ++ .insert v :: (mid ++ .remove id :: after) =
        (before ++ .insert v :: mid) ++ .remove id :: after := by simp
    rw [hsplit] at h ⊢
    have hgiven : id ∈ issued (before ++ .insert v :: mid) :=
      mem_issued.mpr ⟨before, v, mid, rfl, hnew⟩
    rcases ((tracks_run (vacated_lt_of_append h)).given_iff id).mp hgiven with hgone | hlive
    · rw [withdrawn, report_append]
      exact List.mem_append_left _ hgone
    · exact mem_withdrawn.mpr ⟨_, after, rfl, hlive⟩

end Run

/-- **What is found after these requests**: the arena is a map that hands out new ids. -/
structure IsMap (rs : List (Request α)) : Prop where
  /-- No id has been handed out twice. -/
  nodup_issued : (issued rs).Nodup
  /-- The next one is new too. -/
  fresh : ∀ v, ((run rs).insert v).2 ∉ issued rs
  /-- An id finds what was put in with it, as it has been changed since. -/
  kept : ∀ before v after, rs = before ++ .insert v :: after →
    .remove ((run before).insert v).2 ∉ after →
      (run rs).get? ((run before).insert v).2 =
        some (after.foldl (Request.change ((run before).insert v).2) v)
  /-- It finds nothing once the value has been asked for. -/
  lost : ∀ before v after, rs = before ++ .insert v :: after →
    .remove ((run before).insert v).2 ∈ after → (run rs).get? ((run before).insert v).2 = none
  /-- An id that was not handed out finds nothing. -/
  unknown : ∀ id ∉ issued rs, (run rs).get? id = none
  /-- No value has been taken out twice. -/
  nodup_withdrawn : (withdrawn rs).Nodup
  /-- A value has been taken out if this was asked for after it was put in. -/
  withdrawn_iff : ∀ id, id ∈ withdrawn rs ↔ ∃ before v after, rs = before ++ .insert v :: after ∧
    ((run before).insert v).2 = id ∧ .remove id ∈ after
  /-- Whoever takes out a value gets what the id finds. -/
  answer : ∀ id, ((run rs).remove id).2 = (run rs).get? id
  /-- Other ids find what they have found before. -/
  others : ∀ id k, k ≠ id → ((run rs).remove id).1.get? k = (run rs).get? k
  /-- The number of values is that of the ids in use. -/
  count : (run rs).count = (run rs).toList.length
  /-- The ids in use are listed with what they find. -/
  mem_toList : ∀ id v, (id, v) ∈ (run rs).toList ↔ (run rs).get? id = some v
  /-- They are listed in the order of their cells, each once. -/
  ordered : ((run rs).toList.map Prod.fst).Pairwise (·.index < ·.index)
  /-- Indices are less than the number of cells. -/
  index_lt : ∀ id ∈ issued rs, id.index < (run rs).cells.size

/-- **The arena is a map that hands out new ids**, after any requests that vacate no cell so often
that its generations repeat. There can be any number of cells. -/
theorem isMap_run (rs : List (Request α)) (h : ∀ i, vacated (withdrawn rs) i < UInt32.size) :
    IsMap rs := by
  have htracks := tracks_run h
  exact
    { nodup_issued := htracks.nodup_given
      fresh := htracks.fresh
      kept := fun before v after hrs hno => by
        have hv : (run (before ++ [.insert v])).get? ((run before).insert v).2 = some v := by
          rw [run_concat]
          exact get?_insert_self _ v
        have hsplit : rs = (before ++ [.insert v]) ++ after := by simp [hrs]
        rw [hsplit]
        exact get?_run_append hv hno
      lost := fun before v after hrs hmem =>
        htracks.get?_of_mem_gone ((mem_withdrawn_iff h).mpr ⟨before, v, after, hrs, rfl, hmem⟩)
      unknown := fun id hid => by
        rw [htracks.given_iff, not_or, Bool.not_eq_true, Option.isSome_eq_false_iff,
          Option.isNone_iff_eq_none] at hid
        exact hid.2
      nodup_withdrawn := htracks.nodup_gone
      withdrawn_iff := fun id => mem_withdrawn_iff h
      answer := fun id => snd_remove _ id
      others := fun id k hk => by rw [get?_remove, if_neg hk]
      count := htracks.count_eq
      mem_toList := fun id v => Arena.mem_toList
      ordered := pairwise_index_toList _
      index_lt := fun id hid => htracks.index_lt hid }

/-- Two values are put in; the first one is taken out, twice, and its cell used again. -/
def reusedCell : List (Request Nat) :=
  [.insert 1, .insert 2, .modify ⟨1, 0⟩ (· + 10), .remove ⟨0, 0⟩, .insert 3, .remove ⟨0, 0⟩,
    .modify ⟨0, 0⟩ (· + 10), .get ⟨0, 0⟩]

/-- The first id finds nothing, although its cell is in use. -/
theorem isMap_run_reusedCell :
    (∀ i, vacated (withdrawn reusedCell) i < UInt32.size) ∧
      issued reusedCell = [⟨0, 0⟩, ⟨1, 0⟩, ⟨0, 1⟩] ∧ withdrawn reusedCell = [⟨0, 0⟩] ∧
      (run reusedCell).get? ⟨0, 0⟩ = none ∧ (run reusedCell).get? ⟨1, 0⟩ = some 12 ∧
      (run reusedCell).toList = [(⟨0, 1⟩, 3), (⟨1, 0⟩, 12)] ∧ (run reusedCell).count = 2 := by
  have hgone : withdrawn reusedCell = [⟨0, 0⟩] := by decide
  have hbound : ∀ i, vacated (withdrawn reusedCell) i < UInt32.size := fun i => by
    rw [hgone]
    exact Nat.lt_of_le_of_lt (List.length_filter_le _ _) (by decide)
  have hmap := isMap_run reusedCell hbound
  have hlist : (run reusedCell).toList = [(⟨0, 1⟩, 3), (⟨1, 0⟩, 12)] := by decide
  refine ⟨hbound, by decide, hgone, ?_, ?_, hlist, ?_⟩
  · exact hmap.lost [] 1 _ rfl (.tail _ (.tail _ (.head _)))
  · exact (hmap.mem_toList ⟨1, 0⟩ 12).mp (by rw [hlist]; decide)
  · rw [hmap.count, hlist]
    rfl

end Bindery.Arena
