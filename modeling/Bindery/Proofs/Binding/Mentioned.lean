import Mathlib.Data.List.Induction
import Mathlib.Data.List.TakeWhile
import Mathlib.Tactic.SplitIfs
import Bindery.Binding.Draft
import Bindery.Proofs.Table

/-!
# What a list of references adds up to

Which references of a declaration count, which of them come up first, and where the names stand,
read off the list of references alone.

* `Reference.tracked?`, `Reference.isOpen`: the references that get a place, and those among them
  that are looked up.
* `Context.met`: the first open reference of each name.
* `Context.mentions?`: the places of a name, and what is written there.
* **`Context.met_append`**, `Context.placesOf_append`, `Context.isWritten_append`: one more
  reference.
-/

namespace Bindery

namespace Reference

theorem hidden_strip (r : Reference) : r.strip.hidden = r.hidden := by
  unfold strip
  split
  split_ifs <;> rfl

/-- A reference as the declaration `s` keeps track of it. None for names that never refer to a
declaration, for the declaration itself and for built-in names. -/
def tracked? (cx : Context) (s : Symbol) (r : Reference) : Option Reference :=
  if Draft.isRejected r.name ∨ r.strip.name = s.qualified ∨ cx.scope.isBuiltin r.strip.name then
    none
  else some r.strip

/-- The name is neither hidden by a type parameter nor ignored. -/
def isOpen (s : Symbol) (r : Reference) : Bool := r.name ∉ r.hidden ∧ r.name ∉ s.ignored

theorem isOpen_iff {s : Symbol} {r : Reference} :
    r.isOpen s = true ↔ r.name ∉ r.hidden ∧ r.name ∉ s.ignored := decide_eq_true_iff

/-- The reference stands at a place of `n`. -/
def isPlaceOf (n : String) (r : Reference) : Bool := r.name = n && r.location?.isSome

/-- The reference of each name that stands first, behind those that are there already. -/
def addFirst (rs : List Reference) (r : Reference) : List Reference :=
  if r.name ∈ rs.map name then rs else rs ++ [r]

/-- The reference of each name that stands first. -/
def firsts (rs : List Reference) : List Reference := rs.foldl addFirst []

theorem firsts_append (rs : List Reference) (r : Reference) :
    firsts (rs ++ [r]) = addFirst (firsts rs) r := by
  rw [firsts, List.foldl_append]
  rfl

theorem firsts_subset (rs : List Reference) : firsts rs ⊆ rs := by
  induction rs using List.reverseRecOn with
  | nil => exact List.Subset.refl _
  | append_singleton rs r ih =>
    rw [firsts_append, addFirst]
    split_ifs
    · exact List.Subset.trans ih (List.subset_append_left _ _)
    · exact List.append_subset.mpr
        ⟨List.Subset.trans ih (List.subset_append_left _ _), List.subset_append_right _ _⟩

theorem prefix_firsts (rs rs' : List Reference) : firsts rs <+: firsts (rs ++ rs') := by
  induction rs' using List.reverseRecOn with
  | nil => exact (List.append_nil rs).symm ▸ List.prefix_rfl
  | append_singleton rs' r ih =>
    rw [← List.append_assoc, firsts_append, addFirst]
    split_ifs
    · exact ih
    · exact ih.trans (List.prefix_append _ _)

theorem mem_map_name_firsts {rs : List Reference} {n : String} :
    n ∈ (firsts rs).map name ↔ n ∈ rs.map name := by
  induction rs using List.reverseRecOn with
  | nil => rfl
  | append_singleton rs r ih =>
    rw [firsts_append, addFirst, List.map_append, List.mem_append, ← ih]
    split_ifs with h
    · simp only [List.map_cons, List.map_nil, List.mem_singleton]
      exact ⟨Or.inl, fun hn => hn.elim id fun e => e ▸ h⟩
    · rw [List.map_append, List.mem_append]

theorem nodup_map_name_firsts (rs : List Reference) : ((firsts rs).map name).Nodup := by
  induction rs using List.reverseRecOn with
  | nil => exact List.nodup_nil
  | append_singleton rs r ih =>
    rw [firsts_append, addFirst]
    split_ifs with h
    · exact ih
    · rw [List.map_append, List.nodup_append]
      refine ⟨ih, List.nodup_singleton _, ?_⟩
      rintro a ha b hb rfl
      exact h (List.mem_singleton.mp hb ▸ ha)

/-- Whoever comes first in a list comes first among those that are kept. -/
theorem filter_firsts (q : String → Bool) (rs : List Reference) :
    (firsts rs).filter (fun r => q r.name) =
      firsts (rs.filter fun r => q r.name) := by
  induction rs using List.reverseRecOn with
  | nil => rfl
  | append_singleton rs r ih =>
    rw [firsts_append, addFirst, List.filter_append]
    by_cases hq : q r.name = true
    · have hmem : r.name ∈ (firsts (rs.filter fun r => q r.name)).map name ↔
          r.name ∈ (firsts rs).map name := by
        rw [mem_map_name_firsts, mem_map_name_firsts, List.mem_map, List.mem_map]
        constructor
        · rintro ⟨t, ht, hn⟩
          exact ⟨t, List.mem_of_mem_filter ht, hn⟩
        · rintro ⟨t, ht, hn⟩
          exact ⟨t, List.mem_filter.mpr ⟨ht, by rw [hn, hq]⟩, hn⟩
      rw [show [r].filter (fun r => q r.name) = [r] by simp [hq], firsts_append, addFirst, ← ih]
      rw [← ih] at hmem
      by_cases hr : r.name ∈ (firsts rs).map name
      · rw [if_pos hr, if_pos (hmem.mpr hr)]
      · rw [if_neg hr, if_neg (mt hmem.mp hr), List.filter_append]
        simp [hq]
    · rw [show [r].filter (fun r => q r.name) = [] by simp [hq], List.append_nil, ← ih]
      split_ifs
      · rfl
      · rw [List.filter_append]
        simp [hq]

end Reference

namespace Context

open Reference

variable (cx : Context) (s : Symbol) (rs : List Reference) (r : Reference) (n : String)

/-- The references that a declaration keeps track of. -/
def tracked : List Reference := rs.filterMap (tracked? cx s)

/-- The references that are looked up. -/
def opened : List Reference := (cx.tracked s rs).filter (isOpen s)

/-- The references by which names come up for the first time. -/
def met : List Reference := firsts (cx.opened s rs)

theorem prefix_met (rs' : List Reference) : cx.met s rs <+: cx.met s (rs ++ rs') := by
  rw [met, met, opened, opened, tracked, tracked, List.filterMap_append, List.filter_append]
  exact prefix_firsts _ _

/-- The target of a name; none while its import waits. -/
def target? (n : String) : Option String := ((cx.scope.meaning n).target? n).map Prod.fst

/-- What a reference waits for, if it is to a name whose import waits. -/
def deferral? : Option Deferral :=
  if (cx.target? r.name).isSome then none else some ⟨r.name, r.strong, r.location?.isSome⟩

/-- The dependency on what a reference leads to. Nothing depends on itself. -/
def edge? : Option Dependency :=
  ((cx.scope.meaning r.name).target? r.name).bind fun t =>
    if t.1 = s.qualified then none else some ⟨t.1, t.2, r.strong⟩

/-- The target that a single reference leads to. -/
def outcome? : Option String :=
  (r.tracked? cx s).bind fun r => if r.isOpen s then cx.target? r.name else none

theorem target?_eq_none_iff (n : String) :
    cx.target? n = none ↔ ∃ source, cx.scope.meaning n = .waiting source := by
  rw [target?, Option.map_eq_none_iff]
  cases cx.scope.meaning n <;> simp [Meaning.target?]

theorem name_deferral {d : Deferral} (hd : cx.deferral? r = some d) :
    d.name = r.name ∧ cx.target? r.name = none := by
  rw [deferral?] at hd
  split_ifs at hd with ht
  cases hd
  rw [Option.isSome_iff_ne_none, not_not] at ht
  exact ⟨rfl, ht⟩

/-- Nothing is written instead of a name that waits. -/
theorem replacement?_of_target?_eq_none {n : String} (h : cx.target? n = none) :
    cx.replacement? n = none := by
  obtain ⟨source, hs⟩ := (cx.target?_eq_none_iff n).mp h
  rw [replacement?, hs]
  rfl

/-! ## Places -/

/-- The places where a name stands, in the order in which they are met. -/
def placesOf : List Span :=
  ((cx.tracked s rs).filter (·.name = n)).filterMap Reference.location?

/-- The names that have places. -/
def placedNames : Roster String :=
  .ofList (((cx.tracked s rs).filter (·.location?.isSome)).map Reference.name)

/-- The name is looked up at its first place or later. -/
def isWritten : Bool :=
  ((cx.tracked s rs).dropWhile fun r => !r.isPlaceOf n).any fun r => r.name = n && r.isOpen s

/-- The places of a name, and what is written there. -/
def mentions? : Option Mentions :=
  if cx.placesOf s rs n = [] then none
  else some ⟨if cx.isWritten s rs n then cx.replacement? n else none,
    .ofList (cx.placesOf s rs n)⟩

/-! ## One more reference -/

section Append

variable {cx s rs r}

theorem tracked_append :
    cx.tracked s (rs ++ [r]) = cx.tracked s rs ++ (r.tracked? cx s).toList := by
  rw [tracked, List.filterMap_append, tracked]
  cases h : r.tracked? cx s <;> simp [h]

theorem tracked_append_of_none (h : r.tracked? cx s = none) :
    cx.tracked s (rs ++ [r]) = cx.tracked s rs := by
  rw [tracked_append, h]
  simp

theorem placesOf_eq_nil_iff :
    cx.placesOf s rs n = [] ↔ (cx.tracked s rs).dropWhile (fun r => !r.isPlaceOf n) = [] := by
  rw [placesOf, List.filterMap_eq_nil_iff, List.dropWhile_eq_nil_iff]
  refine forall_congr' fun r => ?_
  simp only [List.mem_filter, isPlaceOf]
  by_cases hn : r.name = n <;> simp [hn]

theorem placesOf_ne_nil {t : Reference} (ht : t ∈ cx.tracked s rs)
    (hl : t.location?.isSome = true) : cx.placesOf s rs t.name ≠ [] := by
  obtain ⟨l, hl⟩ := Option.isSome_iff_exists.mp hl
  have hm : t ∈ (cx.tracked s rs).filter (·.name = t.name) := List.mem_filter.mpr ⟨ht, by simp⟩
  exact List.ne_nil_of_mem (List.mem_filterMap.mpr ⟨t, hm, hl⟩)

theorem isWritten_of_placesOf (h : cx.placesOf s rs n = []) : cx.isWritten s rs n = false := by
  rw [isWritten, (placesOf_eq_nil_iff n).mp h]
  rfl

variable {t : Reference} (h : r.tracked? cx s = some t)

include h

theorem tracked_append_of_some : cx.tracked s (rs ++ [r]) = cx.tracked s rs ++ [t] := by
  rw [tracked_append, h]
  rfl

theorem opened_append :
    cx.opened s (rs ++ [r]) = cx.opened s rs ++ if t.isOpen s then [t] else [] := by
  rw [opened, tracked_append_of_some h, List.filter_append, opened]
  by_cases ho : t.isOpen s <;> simp [ho]

/-- **A name comes up once.** -/
theorem met_append : cx.met s (rs ++ [r]) =
    if t.isOpen s ∧ t.name ∉ (cx.met s rs).map Reference.name then cx.met s rs ++ [t]
    else cx.met s rs := by
  rw [met, opened_append h]
  by_cases ho : t.isOpen s
  · rw [if_pos ho, firsts_append, addFirst, met]
    by_cases hm : t.name ∈ (firsts (cx.opened s rs)).map Reference.name
    · simp [hm]
    · rw [if_neg hm, if_pos ⟨ho, hm⟩]
  · simp [ho, met]

theorem placesOf_append : cx.placesOf s (rs ++ [r]) n =
    cx.placesOf s rs n ++ if t.name = n then t.location?.toList else [] := by
  rw [placesOf, tracked_append_of_some h, List.filter_append, List.filterMap_append, placesOf]
  by_cases hn : t.name = n
  · cases hl : t.location? <;> simp [hn, hl]
  · simp [hn]

theorem isWritten_append : cx.isWritten s (rs ++ [r]) n =
    (cx.isWritten s rs n ||
      (t.name = n && t.isOpen s && !(cx.placesOf s (rs ++ [r]) n).isEmpty)) := by
  rw [isWritten, isWritten, tracked_append_of_some h, List.dropWhile_append]
  by_cases hp : cx.placesOf s rs n = []
  · have hd := (placesOf_eq_nil_iff n).mp hp
    rw [placesOf_append n h, hp, hd]
    cases hl : t.location? <;> by_cases hn : t.name = n <;> simp [isPlaceOf, hn, hl]
  · have hd := mt (placesOf_eq_nil_iff n).mpr hp
    have he : (cx.placesOf s (rs ++ [r]) n).isEmpty = false := by
      rw [placesOf_append n h, List.isEmpty_eq_false_iff]
      exact List.append_ne_nil_of_left_ne_nil hp _
    rw [he, if_neg (by simpa using hd), List.any_append]
    simp

end Append

end Context

end Bindery
