import Mathlib.Data.List.Nodup
import Bindery.Table

/-!
# Tables as lists of entries

* `Table.mem_entries`: the entries are what the look-ups find.
* `Table.ext_get?`: a table is its names in order and what they are mapped to.
* `Table.entries_insert`: a new name goes to the end.
* `Table.erase_insert`, `Table.erase_insert_comm`: a name that is added can be taken out again.
-/

namespace Bindery

namespace Entries

variable {α : Type} {k : String} {v : α} {es : List (String × α)}

theorem mem_of_find? (h : find? k es = some v) : (k, v) ∈ es := by
  induction es with
  | nil => cases h
  | cons e es ih =>
    by_cases he : e.1 = k
    · rw [find?, if_pos he] at h
      cases h
      rw [← he]
      exact List.mem_cons_self
    · rw [find?, if_neg he] at h
      exact List.mem_cons_of_mem _ (ih h)

theorem find?_of_mem (hn : (es.map Prod.fst).Nodup) (h : (k, v) ∈ es) : find? k es = some v := by
  induction es with
  | nil => cases h
  | cons e es ih =>
    rw [List.map_cons, List.nodup_cons] at hn
    rcases List.mem_cons.mp h with rfl | h
    · rw [find?, if_pos rfl]
    · have he : e.1 ≠ k := fun hk => hn.1 (hk ▸ List.mem_map_of_mem h)
      rw [find?, if_neg he, ih hn.2 h]

theorem put_of_not_mem (h : k ∉ es.map Prod.fst) : put k v es = es ++ [(k, v)] := by
  induction es with
  | nil => rfl
  | cons e es ih =>
    rw [List.map_cons, List.mem_cons, not_or] at h
    rw [put, if_neg (Ne.symm h.1), ih h.2, List.cons_append]

/-- Distinct names in order, and what they are mapped to, are all there is. -/
theorem eq_of_map_fst {es' : List (String × α)} (hk : es.map Prod.fst = es'.map Prod.fst)
    (hn : (es.map Prod.fst).Nodup) (h : ∀ k, find? k es = find? k es') : es = es' := by
  have hlen : es.length = es'.length := by simpa using congrArg List.length hk
  refine List.ext_getElem hlen fun i hi hi' => ?_
  have h1 : es[i].1 = es'[i].1 := by
    have := congrArg (·[i]?) hk
    simpa [List.getElem?_map, hi, hi'] using this
  have h2 := find?_of_mem hn (show (es[i].1, es[i].2) ∈ es from List.getElem_mem hi)
  rw [h, h1] at h2
  have h3 := find?_of_mem (hk ▸ hn) (show (es'[i].1, es'[i].2) ∈ es' from List.getElem_mem hi')
  rw [h2] at h3
  exact Prod.ext h1 (Option.some.inj h3)

/-- Entries from which nothing comes can be left out. -/
theorem flatMap_filter {β : Type} {q : String → Bool} {f : String × α → List β}
    (h : ∀ e ∈ es, q e.1 = false → f e = []) :
    (es.filter fun e => q e.1).flatMap f = es.flatMap f := by
  induction es with
  | nil => rfl
  | cons e es ih =>
    rw [List.forall_mem_cons] at h
    rw [List.flatMap_cons, ← ih h.2]
    cases he : q e.1 with
    | true => rw [List.filter_cons, if_pos he, List.flatMap_cons]
    | false => rw [List.filter_cons, if_neg (by simp [he]), h.1 he, List.nil_append]

end Entries

namespace Table

variable {α : Type} {t u : Table α} {k : String} {v : α}

theorem mem_entries : (k, v) ∈ t.entries ↔ t.get? k = some v :=
  ⟨Entries.find?_of_mem t.nodup, Entries.mem_of_find?⟩

theorem mem_keys : k ∈ t.keys ↔ ∃ v, t.get? k = some v := by
  rw [← contains_iff, contains, Option.isSome_iff_exists]

theorem ext_get? (hk : t.keys = u.keys) (h : ∀ k, t.get? k = u.get? k) : t = u := by
  obtain ⟨es, hn⟩ := t
  obtain ⟨es', hn'⟩ := u
  obtain rfl : es = es' := Entries.eq_of_map_fst hk hn h
  rfl

/-- Tables that agree where `q` holds have the same entries there. -/
theorem filter_entries {q : String → Bool}
    (hk : t.keys.filter q = u.keys.filter q) (h : ∀ n, q n = true → t.get? n = u.get? n) :
    t.entries.filter (fun e => q e.1) = u.entries.filter fun e => q e.1 := by
  have hkeys : ∀ t : Table α, (t.entries.filter fun e => q e.1).map Prod.fst = t.keys.filter q :=
    fun t => List.filter_map.symm
  have hnodup : ∀ t : Table α, ((t.entries.filter fun e => q e.1).map Prod.fst).Nodup := fun t =>
    hkeys t ▸ t.nodup.filter q
  have hmem : ∀ {t : Table α} {k v}, Entries.find? k (t.entries.filter fun e => q e.1) = some v ↔
      t.get? k = some v ∧ q k = true := by
    intro t k v
    constructor
    · intro hf
      have hm := List.mem_filter.mp (Entries.mem_of_find? hf)
      exact ⟨mem_entries.mp hm.1, hm.2⟩
    · rintro ⟨hg, hq⟩
      exact Entries.find?_of_mem (hnodup t) (List.mem_filter.mpr ⟨mem_entries.mpr hg, hq⟩)
  apply Entries.eq_of_map_fst ((hkeys t).trans (hk.trans (hkeys u).symm)) (hnodup t)
  intro k
  apply Option.ext
  intro v
  rw [hmem, hmem]
  exact ⟨fun ⟨hg, hq⟩ => ⟨h k hq ▸ hg, hq⟩, fun ⟨hg, hq⟩ => ⟨(h k hq).symm ▸ hg, hq⟩⟩

theorem entries_insert (h : k ∉ t.keys) : (t.insert k v).entries = t.entries ++ [(k, v)] :=
  Entries.put_of_not_mem h

theorem modify_comm {k' : String} (h : k ≠ k') (f g : α → α) :
    (t.modify k f).modify k' g = (t.modify k' g).modify k f := by
  refine ext_get? (by simp only [keys_modify]) fun n => ?_
  rw [get?_modify, get?_modify, get?_modify, get?_modify]
  by_cases hn : n = k
  · have hn' : n ≠ k' := fun e => h (hn.symm.trans e)
    rw [if_neg hn', if_pos hn, if_pos hn, if_neg hn']
  · rw [if_neg hn, if_neg hn]

theorem keys_erase (t : Table α) (k : String) : (t.erase k).keys = t.keys.filter (· ≠ k) := by
  simp only [erase, keys, List.filter_map]
  rfl

theorem erase_of_not_mem (h : k ∉ t.keys) : t.erase k = t := by
  refine ext_get? ?_ fun n => ?_
  · rw [keys_erase, List.filter_eq_self]
    exact fun a ha => decide_eq_true fun e => h (e ▸ ha)
  · rw [get?_erase]
    split_ifs with hn
    · rw [hn, get?_eq_none_iff.mpr h]
    · rfl

theorem insert_of_get? (h : t.get? k = some v) : t.insert k v = t := by
  refine ext_get? ?_ fun n => ?_
  · rw [keys_insert, if_pos (mem_keys.mpr ⟨v, h⟩)]
  · rw [get?_insert]
    split_ifs with hn
    · rw [hn, h]
    · rfl

theorem insert_insert (w : α) : (t.insert k v).insert k w = t.insert k w := by
  have hm : k ∈ (t.insert k v).keys := mem_keys.mpr ⟨v, by rw [get?_insert, if_pos rfl]⟩
  refine ext_get? ?_ fun n => ?_
  · rw [keys_insert, if_pos hm, keys_insert, keys_insert]
  · rw [get?_insert, get?_insert, get?_insert]
    split_ifs <;> rfl

theorem erase_insert (h : k ∉ t.keys) : (t.insert k v).erase k = t := by
  have he : t.keys.filter (· ≠ k) = t.keys := by rw [← keys_erase, erase_of_not_mem h]
  refine ext_get? ?_ fun n => ?_
  · rw [keys_erase, keys_insert, if_neg h, List.filter_append, he]
    simp
  · rw [get?_erase, get?_insert]
    split_ifs with hn
    · rw [hn, get?_eq_none_iff.mpr h]
    · rfl

theorem erase_insert_comm {k' : String} (h : k ≠ k') :
    (t.insert k v).erase k' = (t.erase k').insert k v := by
  refine ext_get? ?_ fun n => ?_
  · have hm : k ∈ t.keys.filter (· ≠ k') ↔ k ∈ t.keys := by simp [h]
    rw [keys_erase, keys_insert, keys_insert, keys_erase]
    by_cases hk : k ∈ t.keys
    · rw [if_pos hk, if_pos (hm.mpr hk)]
    · rw [if_neg hk, if_neg (mt hm.mp hk), List.filter_append, List.filter_singleton]
      simp [h]
  · rw [get?_erase, get?_insert, get?_insert, get?_erase]
    by_cases hn : n = k'
    · rw [if_pos hn, hn, if_neg (Ne.symm h), if_pos rfl]
    · rw [if_neg hn, if_neg hn]

theorem insert_insert_comm {k' : String} (h : k ≠ k') (hk : k ∈ t.keys) (w : α) :
    (t.insert k' w).insert k v = (t.insert k v).insert k' w := by
  have hk' : k ∈ (t.insert k' w).keys := by
    rw [keys_insert]
    split_ifs
    · exact hk
    · exact List.mem_append_left _ hk
  refine ext_get? ?_ fun n => ?_
  · rw [keys_insert, if_pos hk', keys_insert, keys_insert, keys_insert, if_pos hk]
  · rw [get?_insert, get?_insert, get?_insert, get?_insert]
    by_cases hn : n = k
    · rw [if_pos hn, hn, if_neg h, if_pos rfl]
    · rw [if_neg hn, if_neg hn]

/-- A table whose values are a function of their names. -/
theorem get?_of_entries_eq_map {β : Type} {l : List β} {name : β → String} {f : String → α}
    (h : t.entries = l.map fun x => (name x, f (name x))) (k : String) :
    t.get? k = if k ∈ l.map name then some (f k) else none := by
  have hk : t.keys = l.map name := by
    rw [keys, h, List.map_map]
    rfl
  by_cases hm : k ∈ l.map name
  · rw [if_pos hm, ← mem_entries, h]
    obtain ⟨x, hx, rfl⟩ := List.mem_map.mp hm
    exact List.mem_map_of_mem hx
  · rw [if_neg hm, get?_eq_none_iff, hk]
    exact hm

end Table

end Bindery
