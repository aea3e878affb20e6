import Mathlib.Data.List.Nodup
import Bindery.Store.Names

/-!
# What the operations of a name table do to the holders of a name

* `NameTable.Sound`: a name without a holder has no former holders; every operation keeps it.
* **`NameTable.holders_register`**, **`NameTable.holders_unregister`**: whoever is given a short
  name stands before the other holders, and whoever leaves is gone from among them.
* `NameTable.snd_register`: whom a newcomer is told of.
* `NameTable.get?_qualified_register`, `NameTable.get?_qualified_unregister`: qualified names.
-/

namespace Bindery.NameTable

variable {t : NameTable} {name qualified n : String} {id : SymbolId}

/-- A short name that nobody holds is remembered for nobody. -/
def Sound (t : NameTable) : Prop := ∀ n, t.short.get? n = none → t.earlier n = []

theorem sound_empty : ({} : NameTable).Sound := fun _ _ => rfl

theorem byShortName?_eq_head? (h : t.Sound) (n : String) :
    t.byShortName? n = (t.holders n).head? := by
  unfold byShortName? holders
  cases hs : t.short.get? n with
  | none => simp [h n hs]
  | some id => simp

theorem earlier_setEarlier (ids : List SymbolId) :
    (t.setEarlier name ids).earlier n = if n = name then ids else t.earlier n := by
  unfold setEarlier earlier
  cases ids with
  | nil => by_cases hn : n = name <;> simp [Table.get?_erase, hn]
  | cons id ids => by_cases hn : n = name <;> simp [Table.get?_insert, hn]

theorem filter_ne_of_nodup {ids : List SymbolId} (h : (id :: ids).Nodup) :
    (id :: ids).filter (· ≠ id) = ids := by
  rw [List.filter_cons_of_neg (by simp), List.filter_eq_self]
  intro k hk
  have hne : k ≠ id := fun e => (List.nodup_cons.mp h).1 (e ▸ hk)
  simpa using hne

/-! ## Registration -/

theorem short_registerShort : (t.registerShort name id).1.short = t.short.insert name id := by
  unfold registerShort
  simp only
  split
  · rfl
  · split <;> rfl

theorem earlier_registerShort_of_ne (hne : n ≠ name) :
    (t.registerShort name id).1.earlier n = t.earlier n := by
  unfold registerShort
  cases t.short.get? name with
  | none => rfl
  | some previous =>
    by_cases hp : previous = id
    · simp [hp, earlier]
    · simp [hp, earlier, Table.get?_insert, hne]

/-- Whoever else held the name is a former holder now. -/
theorem earlier_registerShort (h : t.Sound) (hn : (t.holders name).Nodup) :
    (t.registerShort name id).1.earlier name = (t.holders name).filter (· ≠ id) := by
  unfold registerShort
  cases hs : t.short.get? name with
  | none =>
    rw [holders, hs, h name hs]
    exact h name hs
  | some previous =>
    have hh : t.holders name = previous :: t.earlier name := by simp [holders, hs]
    rw [hh] at hn ⊢
    by_cases hp : previous = id
    · rw [hp] at hn ⊢
      rw [filter_ne_of_nodup hn]
      simp [earlier]
    · rw [List.filter_cons_of_pos (by simpa using hp)]
      simp [hp, earlier, Table.get?_insert]

/-- **Whoever is given a short name stands before all others that hold it.** -/
theorem holders_register (h : t.Sound) (hn : (t.holders name).Nodup) :
    (t.register name qualified id true).1.holders n =
      if n = name then id :: (t.holders name).filter (· ≠ id) else t.holders n := by
  simp only [register, if_true]
  rw [holders, short_registerShort, Table.get?_insert]
  by_cases hne : n = name
  · rw [if_pos hne, if_pos hne, hne,
      earlier_registerShort (t := { t with qualified := t.qualified.insert qualified id }) h hn]
    rfl
  · rw [if_neg hne, if_neg hne, earlier_registerShort_of_ne hne]
    rfl

@[simp] theorem holders_register_false :
    (t.register name qualified id false).1.holders n = t.holders n := rfl

theorem Sound.register (h : t.Sound) (withShort : Bool) :
    (t.register name qualified id withShort).1.Sound := by
  cases withShort with
  | false => exact h
  | true =>
    intro n hn
    simp only [NameTable.register, if_true] at hn ⊢
    rw [short_registerShort, Table.get?_insert] at hn
    split_ifs at hn with hne
    rw [earlier_registerShort_of_ne hne]
    exact h n hn

/-- Whoever is given a short name is told who else held it. -/
theorem snd_register (withShort : Bool) : (t.register name qualified id withShort).2 =
    if withShort then (t.byShortName? name).filter (· ≠ id) else none := by
  cases withShort with
  | false => rfl
  | true =>
    simp only [NameTable.register, registerShort, byShortName?, if_true]
    cases t.short.get? name with
    | none => rfl
    | some previous => by_cases hp : previous = id <;> simp [Option.filter, hp]

theorem get?_qualified_register (withShort : Bool) (k : String) :
    (t.register name qualified id withShort).1.qualified.get? k =
      if k = qualified then some id else t.qualified.get? k := by
  cases withShort with
  | false => simp [register, Table.get?_insert]
  | true =>
    simp only [register, if_true, registerShort]
    split
    · simp [Table.get?_insert]
    · split <;> simp [Table.get?_insert]

/-! ## Leaving -/

theorem holders_unregisterShort (hn : (t.holders name).Nodup) :
    (t.unregisterShort name id).holders n =
      if n = name then (t.holders name).filter (· ≠ id) else t.holders n := by
  unfold unregisterShort
  by_cases hs : t.short.get? name = some id
  · rw [if_pos hs]
    have hh : t.holders name = id :: t.earlier name := by simp [holders, hs]
    rw [hh] at hn ⊢
    rw [filter_ne_of_nodup hn]
    cases he : t.earlier name with
    | nil =>
      unfold earlier at he
      by_cases hne : n = name <;>
        simp [holders, earlier, setEarlier, Table.get?_erase, hne]
    | cons restored rest =>
      simp only [holders, earlier_setEarlier]
      by_cases hne : n = name
      · simp [hne, setEarlier, Table.get?_insert]
      · simp only [if_neg hne]
        simp [earlier, setEarlier, Table.get?_insert, hne]
  · rw [if_neg hs]
    simp only [holders, earlier_setEarlier]
    by_cases hne : n = name
    · subst hne
      cases ho : t.short.get? n with
      | none => simp [setEarlier, ho]
      | some k =>
        have hk : k ≠ id := fun e => hs (by rw [ho, e])
        simp [setEarlier, ho, hk]
    · simp [setEarlier, hne]

theorem Sound.unregisterShort (h : t.Sound) : (t.unregisterShort name id).Sound := by
  intro n hn
  unfold NameTable.unregisterShort at hn ⊢
  by_cases hs : t.short.get? name = some id
  · rw [if_pos hs] at hn ⊢
    cases he : t.earlier name with
    | nil =>
      simp only [he, setEarlier, Table.get?_erase] at hn
      rw [earlier_setEarlier]
      by_cases hne : n = name
      · rw [if_pos hne]
      · rw [if_neg hne] at hn ⊢
        exact h n hn
    | cons restored rest =>
      simp only [he, setEarlier, Table.get?_insert] at hn
      rw [earlier_setEarlier]
      by_cases hne : n = name
      · rw [if_pos hne] at hn
        cases hn
      · rw [if_neg hne] at hn ⊢
        exact h n hn
  · rw [if_neg hs] at hn ⊢
    rw [earlier_setEarlier]
    by_cases hne : n = name
    · subst hne
      rw [if_pos rfl, h n hn, List.filter_nil]
    · rw [if_neg hne]
      exact h n hn

/-- Qualified names take no part in what happens to the short ones. -/
theorem holders_unregister_eq :
    (t.unregister name qualified id).holders n = (t.unregisterShort name id).holders n := by
  unfold unregister
  simp only
  split_ifs <;> rfl

/-- **Whoever leaves is gone from among the holders of its short name.** -/
theorem holders_unregister (hn : (t.holders name).Nodup) :
    (t.unregister name qualified id).holders n =
      if n = name then (t.holders name).filter (· ≠ id) else t.holders n := by
  rw [holders_unregister_eq, holders_unregisterShort hn]

theorem Sound.unregister (h : t.Sound) : (t.unregister name qualified id).Sound := by
  have hu : (t.unregisterShort name id).Sound := h.unregisterShort
  unfold NameTable.unregister
  simp only
  split_ifs
  · exact hu
  · exact hu

theorem qualified_unregisterShort : (t.unregisterShort name id).qualified = t.qualified := by
  unfold unregisterShort setEarlier
  split
  · split <;> rfl
  · rfl

theorem get?_qualified_unregister (k : String) :
    (t.unregister name qualified id).qualified.get? k =
      if k = qualified ∧ t.qualified.get? qualified = some id then none
      else t.qualified.get? k := by
  simp only [unregister, qualified_unregisterShort]
  by_cases hq : t.qualified.get? qualified = some id
  · by_cases hk : k = qualified <;> simp [hq, hk, Table.get?_erase]
  · simp [hq, qualified_unregisterShort]

end Bindery.NameTable
