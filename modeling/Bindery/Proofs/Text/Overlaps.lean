import Mathlib.Data.List.Pairwise
import Bindery.Proofs.Text.Verdicts

/-!
# Overlaps that are reported

The scan for overlaps looks at the spans of edits only, and the pass that edits a text at everything
else as well. Where all spans fit the text, the two judge alike.

* `mem_eraseReps`, `nodup_eraseReps`: neighbours that repeat, in a list that is in order.
* **`Edit.sortDistinct_eq`**: one edit for each span, in order of application.
* `Progress.reports`: the reports of a pass; **`Edit.foldl_overlapScan`**: those of the scan.
* **`Edit.reports_overlaps`**: a span is reported exactly if its edit is passed over.
-/

namespace Bindery

/-! ## Neighbours that repeat -/

section EraseReps

variable {α : Type} [DecidableEq α] {a b : α} {l : List α}

theorem eraseReps_loop (a : α) (l acc : List α) : List.eraseRepsBy.loop (· == ·) a l acc =
    acc.reverse ++ List.eraseRepsBy.loop (· == ·) a l [] := by
  induction l generalizing a acc with
  | nil => simp [List.eraseRepsBy.loop]
  | cons b l ih =>
    simp only [List.eraseRepsBy.loop]
    split
    · exact ih a acc
    · rw [ih b (a :: acc), ih b [a]]
      simp

theorem eraseReps_cons_cons (a b : α) (l : List α) : (a :: b :: l).eraseReps =
    if a = b then (b :: l).eraseReps else a :: (b :: l).eraseReps := by
  simp only [List.eraseReps, List.eraseRepsBy, List.eraseRepsBy.loop]
  split_ifs with h
  · simp [h]
  · rw [beq_false_of_ne h]
    exact eraseReps_loop b l [a]

theorem eraseReps_sublist (l : List α) : l.eraseReps.Sublist l := by
  induction l with
  | nil => exact List.Sublist.slnil
  | cons a l ih =>
    cases l with
    | nil => exact List.Sublist.refl [a]
    | cons b l =>
      rw [eraseReps_cons_cons]
      split_ifs
      · exact ih.cons a
      · exact ih.cons_cons a

theorem mem_eraseReps : a ∈ l.eraseReps ↔ a ∈ l := by
  refine ⟨fun h => (eraseReps_sublist l).subset h, fun h => ?_⟩
  induction l with
  | nil => cases h
  | cons b l ih =>
    cases l with
    | nil => exact h
    | cons c l =>
      rw [eraseReps_cons_cons]
      rcases List.mem_cons.mp h with rfl | h
      · split_ifs with hc
        · exact ih (hc ▸ List.mem_cons_self)
        · exact List.mem_cons_self
      · split_ifs
        · exact ih h
        · exact List.mem_cons_of_mem b (ih h)

theorem nodup_eraseReps {r : α → α → Prop} (hanti : ∀ a b, r a b → r b a → a = b)
    (h : l.Pairwise r) : l.eraseReps.Nodup := by
  induction l with
  | nil => exact List.nodup_nil
  | cons a l ih =>
    cases l with
    | nil => exact List.nodup_singleton a
    | cons b l =>
      obtain ⟨ha, hl⟩ := List.pairwise_cons.mp h
      rw [eraseReps_cons_cons]
      split_ifs with hab
      · exact ih hl
      · refine List.nodup_cons.mpr ⟨fun hm => hab ?_, ih hl⟩
        rcases List.mem_cons.mp (mem_eraseReps.mp hm) with hm | hm
        · exact hm
        · exact hanti a b (ha b List.mem_cons_self) ((List.pairwise_cons.mp hl).1 a hm)

end EraseReps

namespace Span

theorem apart_iff_not_overlaps {s t : Span} : s.Apart t ↔ ¬s.Overlaps t := by
  unfold Apart Overlaps
  omega

instance : Std.Symm Span.Apart := ⟨fun _ _ h => h.symm⟩

end Span

namespace Edit

open Text

variable {p : Progress} {e : Edit} {es edits : List Edit} {spans : List Span} {text : String}

/-- **One edit for each span**, in order of application. -/
theorem sortDistinct_eq (hnodup : (edits.map span).Nodup)
    (hspans : ∀ s, s ∈ edits.map span ↔ s ∈ spans) :
    Span.sortDistinct spans = (sort edits).map span := by
  have hanti : ∀ s t : Span, s.appliedFirst t = true → t.appliedFirst s = true → s = t :=
    fun _ _ => Span.appliedFirst_antisymm
  have hsorted : (spans.mergeSort Span.appliedFirst).Pairwise fun s t => s.appliedFirst t = true :=
    List.pairwise_mergeSort Span.appliedFirst_trans Span.appliedFirst_total spans
  have hperm : ((sort edits).map span).Perm (edits.map span) := (List.mergeSort_perm _ _).map span
  refine List.Perm.eq_of_pairwise (fun s t _ _ => hanti s t)
    (hsorted.sublist (eraseReps_sublist _)) (List.pairwise_map.mpr (pairwise_sort edits)) ?_
  refine (List.perm_ext_iff_of_nodup (nodup_eraseReps hanti hsorted)
    (hperm.nodup_iff.mpr hnodup)).mpr fun s => ?_
  rw [mem_eraseReps, List.mem_mergeSort, ← hspans, hperm.mem_iff]

/-! ## The reports of a pass -/

/-- The edits that the edit applied last stands in the way of, with its span. -/
def Progress.reports : Progress → List Edit → List (Span × Span)
  | _, [] => []
  | p, e :: es => ((p.obstacle? e).map (·, e.span)).toList ++ (p.advance e).reports es

theorem Progress.accepts_of_obstacle?_eq_none (hfit : inBounds p.base e.span = true)
    (h : p.obstacle? e = none) : p.accepts e.span = true :=
  accepts_iff.mpr ⟨hfit, obstacle?_eq_none_iff.mp h⟩

theorem Progress.not_accepts_of_obstacle? {s : Span} (h : p.obstacle? e = some s) :
    p.accepts e.span = false := by
  rw [← Bool.not_eq_true, accepts_iff, ← obstacle?_eq_none_iff, h]
  simp

/-- **The scan takes the decisions of the pass**, one by one. -/
theorem step_overlapScan (found : List (Span × Span)) (hfit : inBounds p.base e.span = true) :
    OverlapScan.step ⟨found, p.last⟩ e.span =
      ⟨found ++ ((p.obstacle? e).map (·, e.span)).toList, (p.advance e).last⟩ := by
  cases ho : p.obstacle? e with
  | some s =>
    obtain ⟨hlast, hlt⟩ := Option.filter_eq_some_iff.mp ho
    rw [Progress.advance_of_not_accepts (Progress.not_accepts_of_obstacle? ho), hlast]
    exact if_pos (of_decide_eq_true hlt)
  | none =>
    rw [Progress.advance_of_accepts (Progress.accepts_of_obstacle?_eq_none hfit ho)]
    have hclear := Progress.obstacle?_eq_none_iff.mp ho
    cases hlast : p.last with
    | none => simp [OverlapScan.step]
    | some s => simp [OverlapScan.step, Nat.not_lt.mpr (hclear s hlast)]

/-- **The reports of the scan** are those of the pass, where all spans fit the text. -/
theorem foldl_overlapScan (hfit : ∀ e ∈ es, inBounds p.base e.span = true)
    (found : List (Span × Span)) :
    ((es.map span).foldl OverlapScan.step ⟨found, p.last⟩).found = found ++ p.reports es := by
  induction es generalizing p found with
  | nil => exact (List.append_nil found).symm
  | cons e es ih =>
    rw [List.forall_mem_cons] at hfit
    rw [List.map_cons, List.foldl_cons, step_overlapScan found hfit.1, ih, Progress.reports,
      List.append_assoc]
    rw [p.base_advance]
    exact hfit.2

theorem map_snd_reports (hfit : ∀ e ∈ es, inBounds p.base e.span = true) :
    (p.reports es).map Prod.snd = (passedOver (p.verdicts es)).map span := by
  induction es generalizing p with
  | nil => rfl
  | cons e es ih =>
    rw [List.forall_mem_cons] at hfit
    rw [Progress.reports, Progress.verdicts, passedOver_cons, List.map_append,
      ih (by rw [p.base_advance]; exact hfit.2)]
    cases ho : p.obstacle? e with
    | some s => simp [Progress.not_accepts_of_obstacle? ho]
    | none => simp [Progress.accepts_of_obstacle?_eq_none hfit.1 ho]

/-- **What is in the way of a span** that is reported: an edit that has been applied. -/
theorem Progress.overlaps_of_mem_reports (hle : ∀ e ∈ es, e.span.start ≤ e.span.stop)
    (hsorted : es.Pairwise fun a b => a.span.appliedFirst b.span = true)
    (hlast : ∀ s ∈ p.last, ∀ e ∈ es, s.appliedFirst e.span = true) {r : Span × Span}
    (hr : r ∈ p.reports es) :
    (r.1 ∈ p.last ∨ r.1 ∈ (applied (p.verdicts es)).map span) ∧ r.2.Overlaps r.1 := by
  induction es generalizing p with
  | nil => cases hr
  | cons e es ih =>
    rw [List.forall_mem_cons] at hle
    rw [List.pairwise_cons] at hsorted
    rw [reports, List.mem_append] at hr
    rw [verdicts, applied_cons]
    rcases hr with hr | hr
    · obtain ⟨s, ho, rfl⟩ := Option.map_eq_some_iff.mp (Option.mem_toList.mp hr)
      obtain ⟨hs, hlt⟩ := Option.filter_eq_some_iff.mp ho
      exact ⟨.inl hs, (Span.overlaps_iff (hlast s hs e List.mem_cons_self) hle.1).mpr
        (of_decide_eq_true hlt)⟩
    · -- The edit applied last is this one, or that from before.
      cases ha : p.accepts e.span with
      | true =>
        rw [advance_of_accepts ha] at hr ⊢
        obtain ⟨hmem, hover⟩ := ih hle.2 hsorted.2 (by
          rintro s hs e' he'
          cases hs
          exact hsorted.1 e' he') hr
        refine ⟨.inr ?_, hover⟩
        rw [if_pos rfl, List.map_cons, List.mem_cons]
        exact hmem.imp (fun h => (Option.mem_some_iff.mp h).symm) id
      | false =>
        rw [advance_of_not_accepts ha] at hr ⊢
        exact ih hle.2 hsorted.2 (fun s hs e' he' => hlast s hs e' (List.mem_cons_of_mem e he')) hr

/-! ## Agreement -/

theorem overlaps_eq_reports (hfit : ∀ s ∈ spans, s.Fits text) (hnodup : (edits.map span).Nodup)
    (hspans : ∀ s, s ∈ edits.map span ↔ s ∈ spans) :
    overlaps spans = (Progress.start text.toList).reports (sort edits) := by
  rw [overlaps, sortDistinct_eq hnodup hspans]
  refine foldl_overlapScan (p := Progress.start text.toList) (fun e he => ?_) []
  exact inBounds_iff.mpr (hfit _ ((hspans _).mp (List.mem_map_of_mem (mem_sort.mp he))))

theorem pairwise_apart_iff (hnodup : (edits.map span).Nodup)
    (hspans : ∀ s, s ∈ edits.map span ↔ s ∈ spans) :
    (edits.Pairwise fun a b => a.span.Apart b.span) ↔
      ∀ s ∈ spans, ∀ t ∈ spans, s ≠ t → ¬s.Overlaps t := by
  simp only [← hspans, ← Span.apart_iff_not_overlaps]
  rw [← List.pairwise_map (R := Span.Apart)]
  exact ⟨fun h s hs t ht hne => h.forall hs ht hne,
    fun h => hnodup.pairwise_of_forall_ne h⟩

/-- **The reports agree with the text.** Take one edit for each span of a list, whatever it writes:
the spans reported are, in order, those of the edits passed over; each is reported with a span that
it overlaps and that has been replaced; and none is reported exactly if no two spans overlap. -/
theorem reports_overlaps (text : String) {spans : List Span} (hfit : ∀ s ∈ spans, s.Fits text)
    {edits : List Edit} (hnodup : (edits.map span).Nodup)
    (hspans : ∀ s, s ∈ edits.map span ↔ s ∈ spans) :
    (overlaps spans).map Prod.snd = (applyPossible text edits).2.map span ∧
      (∀ r ∈ overlaps spans, r.1 ∈ spans ∧ r.1 ∉ (applyPossible text edits).2.map span ∧
        r.2.Overlaps r.1) ∧
      (overlaps spans = [] ↔ ∀ s ∈ spans, ∀ t ∈ spans, s ≠ t → ¬s.Overlaps t) := by
  set vs := verdicts text edits with hvs
  have hfits : ∀ e ∈ edits, e.span.Fits text := fun e he =>
    hfit _ ((hspans _).mp (List.mem_map_of_mem he))
  have hbounds : ∀ e ∈ sort edits, inBounds text.toList e.span = true := fun e he =>
    inBounds_iff.mpr (hfits e (mem_sort.mp he))
  have hreports := overlaps_eq_reports hfit hnodup hspans
  have hsnd : (overlaps spans).map Prod.snd = (applyPossible text edits).2.map span := by
    rw [hreports, snd_applyPossible]
    exact map_snd_reports hbounds
  -- The edits applied and those passed over are the edits given, which have different spans.
  have hperm : ((applied vs).map span ++ (passedOver vs).map span).Perm (edits.map span) := by
    rw [← List.map_append, applied, passedOver, ← List.map_append]
    refine (((List.filter_append_perm _ _).map Prod.fst).trans ?_).map span
    rw [hvs, verdicts, map_fst_verdicts]
    exact List.mergeSort_perm _ _
  have hdisjoint := (List.nodup_append.mp (hperm.nodup_iff.mpr hnodup)).2.2
  refine ⟨hsnd, fun r hr => ?_, ?_⟩
  · rw [hreports] at hr
    obtain ⟨hmem, hover⟩ := Progress.overlaps_of_mem_reports
      (fun e he => (hfits e (mem_sort.mp he)).le) (pairwise_sort edits)
      (fun s hs => absurd hs (Option.not_mem_none s)) hr
    have happlied : r.1 ∈ (applied vs).map span :=
      hmem.resolve_left fun h => Option.not_mem_none _ h
    refine ⟨(hspans _).mp (hperm.mem_iff.mp (List.mem_append_left _ happlied)), fun hskip => ?_,
      hover⟩
    rw [snd_applyPossible] at hskip
    exact hdisjoint _ happlied _ hskip rfl
  · rw [← List.map_eq_nil_iff (f := Prod.snd), hsnd, List.map_eq_nil_iff, snd_applyPossible,
      verdicts, passedOver_eq_nil_iff, admits_sort_iff, and_iff_right hfits]
    exact pairwise_apart_iff hnodup hspans

/-- Two spans that reach into a third one, which is given twice: one from the left, and an empty
one. -/
def crowdedSpans : List Span := [⟨0, 4⟩, ⟨3, 6⟩, ⟨7, 8⟩, ⟨3, 6⟩, ⟨4, 4⟩]

/-- One edit for each of these spans. -/
def crowdedEdits : List Edit :=
  [⟨⟨7, 8⟩, ""⟩, ⟨⟨3, 6⟩, "x"⟩, ⟨⟨4, 4⟩, "y"⟩, ⟨⟨0, 4⟩, "z"⟩]

theorem reports_overlaps_crowdedSpans :
    (∀ s ∈ crowdedSpans, s.Fits "añcdefg") ∧
      applyPossible "añcdefg" crowdedEdits = ("añxf", [⟨⟨4, 4⟩, "y"⟩, ⟨⟨0, 4⟩, "z"⟩]) ∧
      (overlaps crowdedSpans).map Prod.snd = [⟨4, 4⟩, ⟨0, 4⟩] ∧
      ¬∀ s ∈ crowdedSpans, ∀ t ∈ crowdedSpans, s ≠ t → ¬s.Overlaps t := by
  have hfit : ∀ s ∈ crowdedSpans, s.Fits "añcdefg" := fun s hs =>
    inBounds_iff.mp (List.all_eq_true.mp
      (by decide : crowdedSpans.all (inBounds "añcdefg".toList) = true) s hs)
  have hspans : ∀ s, s ∈ crowdedEdits.map span ↔ s ∈ crowdedSpans := fun s => by
    simp only [crowdedEdits, crowdedSpans, List.map_cons, List.map_nil, List.mem_cons]
    tauto
  have hsort : sort crowdedEdits = crowdedEdits := List.mergeSort_of_pairwise (by decide)
  have happlied : applyPossible "añcdefg" crowdedEdits =
      ("añxf", [⟨⟨4, 4⟩, "y"⟩, ⟨⟨0, 4⟩, "z"⟩]) := by
    rw [applyPossible, hsort]
    decide
  obtain ⟨hsnd, -, hnil⟩ := reports_overlaps "añcdefg" hfit (by decide) hspans
  rw [happlied] at hsnd
  refine ⟨hfit, happlied, hsnd, ?_⟩
  rw [← hnil]
  intro h
  rw [h] at hsnd
  cases hsnd

end Edit

end Bindery
