import Mathlib.Data.List.Induction
import Mathlib.Data.List.Nodup
import Mathlib.Tactic.SplitIfs
import Bindery.Roster

/-!
# Rosters as lists

* `Roster.ext_toList`: a roster is the list of its members.
* `Roster.toList_ofList`: a list without repeats is its own roster.
* `Roster.filter_ofList`: the roster of a part of a list.
* `Roster.insert_of_mem`, `Roster.erase_insert`: a newcomer can leave again.
-/

namespace Bindery.Roster

variable {α : Type}

theorem ext_toList {r s : Roster α} (h : r.toList = s.toList) : r = s := by
  obtain ⟨xs, hx⟩ := r
  obtain ⟨ys, hy⟩ := s
  obtain rfl : xs = ys := h
  rfl

variable [DecidableEq α] {r : Roster α} {x : α}

theorem toList_ofList {xs : List α} (h : xs.Nodup) : (ofList xs).toList = xs := by
  induction xs using List.reverseRecOn with
  | nil => rfl
  | append_singleton xs x ih =>
    obtain ⟨hxs, -, hd⟩ := List.nodup_append.mp h
    have hx : x ∉ ofList xs := fun hm => hd x (mem_ofList.mp hm) x (List.mem_singleton_self x) rfl
    rw [ofList_append_singleton, toList_insert, if_neg hx, ih hxs]

/-- Whoever is kept is entered in the same order. -/
theorem filter_ofList (q : α → Bool) (xs : List α) :
    (ofList xs).toList.filter q = (ofList (xs.filter q)).toList := by
  induction xs using List.reverseRecOn with
  | nil => rfl
  | append_singleton xs x ih =>
    rw [ofList_append_singleton, toList_insert, List.filter_append]
    by_cases hq : q x = true
    · have hmem : x ∈ ofList (xs.filter q) ↔ x ∈ ofList xs := by simp [hq]
      rw [show [x].filter q = [x] by simp [hq], ofList_append_singleton, toList_insert, ← ih]
      by_cases hx : x ∈ ofList xs
      · rw [if_pos hx, if_pos (hmem.mpr hx)]
      · rw [if_neg hx, if_neg (mt hmem.mp hx), List.filter_append]
        simp [hq]
    · rw [show [x].filter q = [] by simp [hq], List.append_nil, ← ih]
      split_ifs
      · rfl
      · simp [List.filter_append, hq]

theorem insert_of_mem (h : x ∈ r) : r.insert x = r :=
  ext_toList (by rw [toList_insert, if_pos h])

theorem erase_insert (h : x ∉ r) : (r.insert x).erase x = r := by
  have hf : r.toList.filter (· ≠ x) = r.toList :=
    List.filter_eq_self.mpr fun y hy => decide_eq_true fun e => h (e ▸ hy)
  refine ext_toList ?_
  show (r.insert x).toList.filter (· ≠ x) = r.toList
  rw [toList_insert, if_neg h, List.filter_append, hf]
  simp

theorem isEmpty_insert (r : Roster α) (x : α) : (r.insert x).isEmpty = false := by
  rw [isEmpty, List.isEmpty_eq_false_iff]
  exact List.ne_nil_of_mem (mem_insert.mpr (.inr rfl) : x ∈ r.insert x)

end Bindery.Roster
