import Bindery.Proofs.Text.Substitution

/-!
# Edits that are passed over

Where not all edits can be applied, each one is judged in its turn: it is passed over if it does not
fit the text or overlaps one that has been applied. It is compared with the edit applied last only,
which starts before all others.

* `Span.overlaps_iff`: overlap of spans in order of application.
* `Edit.foldl_advance_applied`, `Edit.admits_applied`: the edits passed over leave no trace.
* **`Edit.verdict_iff`**: what decides about an edit.
* **`Edit.judges_applyPossible`**: all edits but the offending ones are applied.
-/

namespace Bindery

/-- A span overlaps one that is applied first exactly if it reaches beyond its start. -/
theorem Span.overlaps_iff {s t : Span} (ho : s.appliedFirst t = true) (ht : t.start ≤ t.stop) :
    t.Overlaps s ↔ s.start < t.stop := by
  rw [appliedFirst_iff] at ho
  rw [Span.Overlaps]
  omega

namespace Edit

open Text

variable {p : Progress} {e a : Edit} {es edits : List Edit} {text : String}

/-! ## The edits that are applied -/

theorem mem_applied {vs : List (Edit × Bool)} : e ∈ applied vs ↔ (e, true) ∈ vs := by
  simp [applied]

theorem applied_sublist (p : Progress) (es : List Edit) : (applied (p.verdicts es)).Sublist es := by
  have hsub : (applied (p.verdicts es)).Sublist ((p.verdicts es).map Prod.fst) :=
    List.filter_sublist.map Prod.fst
  rwa [map_fst_verdicts] at hsub

theorem foldl_advance_applied (p : Progress) (es : List Edit) :
    (applied (p.verdicts es)).foldl Progress.advance p = es.foldl Progress.advance p := by
  induction es generalizing p with
  | nil => rfl
  | cons e es ih =>
    rw [Progress.verdicts, applied_cons, List.foldl_cons]
    split_ifs with ha
    · rw [List.foldl_cons, ih]
    · have hsame : p.advance e = p := Progress.advance_of_not_accepts (by simpa using ha)
      rw [hsame, ih]

theorem admits_applied (p : Progress) (es : List Edit) : p.Admits (applied (p.verdicts es)) := by
  induction es generalizing p with
  | nil => exact foldlM_step_eq_ok_iff.mp (rfl : [].foldlM Progress.step p = .ok p) |>.1
  | cons e es ih =>
    rw [Progress.verdicts, applied_cons]
    split_ifs with ha
    · exact Progress.admits_cons.mpr ⟨ha, ih _⟩
    · have hsame : p.advance e = p := Progress.advance_of_not_accepts (by simpa using ha)
      rw [hsame]
      exact ih p

theorem passedOver_eq_nil_iff : passedOver (p.verdicts es) = [] ↔ p.Admits es := by
  induction es generalizing p with
  | nil => exact ⟨fun _ => admits_applied p [], fun _ => rfl⟩
  | cons e es ih =>
    rw [Progress.verdicts, passedOver_cons, Progress.admits_cons]
    split_ifs with ha
    · rw [ih, and_iff_right ha]
    · simp [ha]

/-- **The edit applied last** starts before all that have been applied. -/
theorem Progress.Admits.last {base : List Char} (h : (start base).Admits es) (s : Span) :
    s ∈ (es.foldl Progress.advance (start base)).last →
      (∃ a ∈ es, a.span = s) ∧ ∀ a ∈ es, s.start ≤ a.span.start := by
  induction es using List.reverseRecOn with
  | nil => exact fun hs => nomatch hs
  | append_singleton es z _ =>
    obtain ⟨-, hz⟩ := admits_append.mp h
    obtain ⟨ha, -⟩ := admits_cons.mp hz
    rw [List.foldl_append, List.foldl_cons, List.foldl_nil, advance_of_accepts ha]
    rintro ⟨⟩
    refine ⟨⟨z, by simp, rfl⟩, fun a hm => ?_⟩
    have hle := (isSome_slice?_iff.mp (h.fit z (by simp))).2.2
    rcases List.mem_append.mp hm with hm | hm
    · have := (List.pairwise_append.mp h.ordered).2.2 a hm z (List.mem_singleton_self z)
      omega
    · obtain rfl := List.mem_singleton.mp hm
      exact Nat.le_refl _

theorem Progress.Admits.last_eq_none {base : List Char} (h : (start base).Admits es)
    (hn : (es.foldl Progress.advance (start base)).last = none) : es = [] := by
  induction es using List.reverseRecOn with
  | nil => rfl
  | append_singleton es z _ =>
    obtain ⟨ha, -⟩ := admits_cons.mp (admits_append.mp h).2
    rw [List.foldl_append, List.foldl_cons, List.foldl_nil, advance_of_accepts ha] at hn
    cases hn

/-! ## Verdicts -/

theorem verdict_eq {before after : List (Edit × Bool)} {b : Bool}
    (h : p.verdicts es = before ++ (e, b) :: after) :
    before = p.verdicts (before.map Prod.fst) ∧
      b = ((before.map Prod.fst).foldl Progress.advance p).accepts e.span := by
  induction before generalizing p es with
  | nil =>
    cases es with
    | nil => cases h
    | cons e' es =>
      obtain ⟨h, -⟩ := List.cons.inj h
      cases h
      exact ⟨rfl, rfl⟩
  | cons v before ih =>
    cases es with
    | nil => cases h
    | cons e' es =>
      obtain ⟨rfl, hrest⟩ := List.cons.inj h
      obtain ⟨hbefore, hb⟩ := ih hrest
      exact ⟨congrArg _ hbefore, hb⟩

/-- **What decides about an edit**: it is passed over exactly if it does not fit the text or
overlaps an edit that was applied in its turn before. -/
theorem verdict_iff {before after : List (Edit × Bool)} {b : Bool}
    (h : verdicts text edits = before ++ (e, b) :: after) :
    b = false ↔ ¬e.span.Fits text ∨ ∃ a, (a, true) ∈ before ∧ e.span.Overlaps a.span := by
  obtain ⟨hbefore, hb⟩ := verdict_eq h
  set start := Progress.start text.toList
  set earlier := before.map Prod.fst with hearlier
  have hsorted := pairwise_sort edits
  rw [← map_fst_verdicts start (sort edits), show start.verdicts (sort edits) = _ from h,
    List.map_append, List.map_cons, List.pairwise_append] at hsorted
  have hadmits : start.Admits (applied before) := hbefore ▸ admits_applied start earlier
  have hfold : (applied before).foldl Progress.advance start =
      earlier.foldl Progress.advance start := hbefore ▸ foldl_advance_applied start earlier
  have hbase : (earlier.foldl Progress.advance start).base = text.toList :=
    List.foldlRecOn (motive := fun q : Progress => q.base = text.toList) earlier _ rfl
      fun q hq e _ => (q.base_advance e).trans hq
  have hfirst : ∀ a ∈ applied before, a.span.appliedFirst e.span = true := fun a ha =>
    hsorted.2.2 a (List.mem_map_of_mem (mem_applied.mp ha)) e List.mem_cons_self
  have haccepts : b = false ↔ ¬(e.span.Fits text ∧
      ∀ s ∈ ((applied before).foldl Progress.advance start).last, e.span.stop ≤ s.start) := by
    rw [hb, ← Bool.not_eq_true, Progress.accepts_iff, hbase, inBounds_iff, hfold]
  rw [haccepts, not_and_or]
  by_cases hfits : e.span.Fits text
  · refine or_congr_right ⟨fun hlast => ?_, ?_⟩
    · obtain ⟨s, hlast⟩ := not_forall.mp hlast
      obtain ⟨hs, hlt⟩ := Classical.not_imp.mp hlast
      obtain ⟨⟨a, ha, rfl⟩, -⟩ := hadmits.last s hs
      exact ⟨a, mem_applied.mp ha,
        (Span.overlaps_iff (hfirst a ha) hfits.le).mpr (Nat.not_le.mp hlt)⟩
    · rintro ⟨a, ha, hover⟩ hclear
      have ha := mem_applied.mpr ha
      cases hl : ((applied before).foldl Progress.advance start).last with
      | none =>
        rw [hadmits.last_eq_none hl] at ha
        cases ha
      | some s =>
        have hle := (hadmits.last s hl).2 a ha
        have hlt := (Span.overlaps_iff (hfirst a ha) hfits.le).mp hover
        have := hclear s hl
        omega
  · simp [hfits]

/-- **The offending edits are passed over and no others.** The pass never breaks off; the edits
applied and those passed over are the edits given; an edit is passed over exactly if it does not fit
the text or overlaps one applied in its turn before; the edits applied can be applied together, to
the same text; and none is passed over exactly if all of them can. -/
theorem judges_applyPossible (text : String) (edits : List Edit) :
    splicePossible? text edits = some (applyPossible text edits) ∧
      ∃ vs : List (Edit × Bool), vs.map Prod.fst = sort edits ∧
        (applied vs ++ passedOver vs).Perm edits ∧
        (applyPossible text edits).2 = passedOver vs ∧
        (∀ before e b after, vs = before ++ (e, b) :: after →
          (b = false ↔ ¬e.span.Fits text ∨ ∃ a, (a, true) ∈ before ∧ e.span.Overlaps a.span)) ∧
        applyAll text (applied vs) = .ok (applyPossible text edits).1 ∧
        ((applyPossible text edits).2 = [] ↔ ∃ result, applyAll text edits = .ok result) ∧
        ((applyPossible text edits).2 = [] →
          applyAll text edits = .ok (applyPossible text edits).1) := by
  have hmap : (verdicts text edits).map Prod.fst = sort edits := map_fst_verdicts _ _
  have hperm : (applied (verdicts text edits) ++ passedOver (verdicts text edits)).Perm edits := by
    rw [applied, passedOver, ← List.map_append]
    refine ((List.filter_append_perm _ _).map Prod.fst).trans ?_
    rw [hmap]
    exact List.mergeSort_perm _ _
  have hall : (applyPossible text edits).2 = [] → applyAll text edits =
      .ok (applyPossible text edits).1 := fun hnil => by
    rw [snd_applyPossible, verdicts, passedOver_eq_nil_iff] at hnil
    exact applyAll_eq_ok_iff.mpr ⟨hnil, (fst_applyPossible _ _).symm⟩
  refine ⟨splicePossible?_eq text edits, verdicts text edits, hmap, hperm,
    snd_applyPossible text edits, fun before e b after h => verdict_iff h, ?_,
    ⟨fun hnil => ⟨_, hall hnil⟩, ?_⟩, hall⟩
  · have hsort : sort (applied (verdicts text edits)) = applied (verdicts text edits) :=
      List.mergeSort_of_pairwise ((pairwise_sort edits).sublist (applied_sublist _ _))
    rw [applyAll_eq_ok_iff, hsort, fst_applyPossible, verdicts, foldl_advance_applied]
    exact ⟨admits_applied _ _, rfl⟩
  · rintro ⟨result, h⟩
    rw [snd_applyPossible, verdicts, passedOver_eq_nil_iff]
    exact (applyAll_eq_ok_iff.mp h).1

/-- One edit begins within a character, and one overlaps an edit that was applied. -/
example : applyPossible "añc" [⟨⟨1, 3⟩, "x"⟩, ⟨⟨2, 3⟩, "z"⟩, ⟨⟨0, 3⟩, "y"⟩] =
    ("axc", [⟨⟨2, 3⟩, "z"⟩, ⟨⟨0, 3⟩, "y"⟩]) := by cbv

end Edit

end Bindery
