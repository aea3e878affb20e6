import Bindery.Proofs.Text.Edit
import Bindery.Text.Splice

/-!
# Edits in place do not break off

Before the edit applied last, the text is still the base text, so that a span which ends there has
its ends between two characters of the one exactly if it has them in the other.

* `Progress.IsIntact`: the text before the cut; `Progress.IsIntact.advance`: every edit keeps it.
* **`Progress.IsIntact.splice?_text`**: an edit that can be applied can be spliced in.
* `Progress.verdicts`: which edits are applied in turn.
* **`Edit.spliceAll?_eq`**, **`Edit.splicePossible?_eq`**: both passes come to their end, with the
  texts of `Edit.applyAll` and `Edit.applyPossible`.
-/

namespace Bindery.Edit

open Text

variable {p q : Progress} {e : Edit} {es : List Edit}

/-! ## One edit -/

theorem Progress.accepts_iff : p.accepts e.span = true ↔
    inBounds p.base e.span = true ∧ ∀ s ∈ p.last, e.span.stop ≤ s.start := by
  rw [accepts, Bool.and_eq_true, Option.all_eq_true]
  simp only [decide_eq_true_eq, Option.mem_def]

theorem Progress.advance_of_accepts (h : p.accepts e.span = true) : p.advance e =
    ⟨p.base, e.span.start, e.newText.toList ++ p.rest e.span.stop, some e.span⟩ := by
  rw [advance, if_pos h]

theorem Progress.advance_of_not_accepts (h : p.accepts e.span = false) : p.advance e = p := by
  rw [advance, if_neg (by simp [h])]

/-- The span applied last, if it stands in the way. -/
def Progress.obstacle? (p : Progress) (e : Edit) : Option Span :=
  p.last.filter (·.start < e.span.stop)

theorem Progress.obstacle?_eq_none_iff :
    p.obstacle? e = none ↔ ∀ s ∈ p.last, e.span.stop ≤ s.start := by
  simp [obstacle?, Option.filter_eq_none_iff]

theorem Progress.step_eq (p : Progress) (e : Edit) : p.step e =
    if inBounds p.base e.span then
      match p.obstacle? e with
      | some previous => .error (.overlap e.span previous)
      | none => .ok (p.advance e)
    else .error (.outOfBounds e.span (byteLength p.base)) := by
  obtain ⟨base, cut, tail, last⟩ := p
  rw [step]
  split_ifs with hb
  · cases last with
    | none =>
      rw [advance_of_accepts (accepts_iff.mpr ⟨hb, fun s hs => absurd hs (Option.not_mem_none s)⟩)]
      simp [obstacle?, step.write, rest]
    | some previous =>
      by_cases ho : previous.start < e.span.stop
      · have hsome : obstacle? ⟨base, cut, tail, some previous⟩ e = some previous :=
          Option.filter_some_pos (decide_eq_true ho)
        simp [hsome, ho]
      · have hlast : ∀ s ∈ some previous, e.span.stop ≤ s.start := fun s hs => by
          cases hs
          exact Nat.not_lt.mp ho
        rw [obstacle?_eq_none_iff.mpr hlast, advance_of_accepts (accepts_iff.mpr ⟨hb, hlast⟩)]
        simp [ho, step.write, rest]
  · rfl

/-! ## The text before the cut -/

/-- **The text before the cut is that of the base text**, and the cut is where the edit applied last
starts. -/
structure Progress.IsIntact (p : Progress) : Prop where
  cut : IsCut p.base p.cut
  last : p.last.elim (byteLength p.base) Span.start = p.cut

theorem Progress.isIntact_start (cs : List Char) : (Progress.start cs).IsIntact :=
  ⟨isCut_byteLength cs, rfl⟩

theorem Progress.IsIntact.advance (h : p.IsIntact) (e : Edit) : (p.advance e).IsIntact := by
  refine ⟨isCut_advance h.cut e, ?_⟩
  cases ha : p.accepts e.span with
  | false => rw [advance_of_not_accepts ha, h.last]
  | true => rw [advance_of_accepts ha]; rfl

theorem Progress.IsIntact.stop_le (h : p.IsIntact) (ha : p.accepts e.span = true) :
    e.span.stop ≤ p.cut := by
  obtain ⟨hb, hlast⟩ := accepts_iff.mp ha
  rw [← h.last]
  cases hl : p.last with
  | none => exact (isSome_slice?_iff.mp hb).2.1.le
  | some s => exact hlast s hl

/-- **An edit that can be applied can be spliced in**: its span lies before the cut. -/
theorem Progress.IsIntact.splice?_text (h : p.IsIntact) (ha : p.accepts e.span = true) :
    splice? p.text e.span e.newText.toList = some (p.advance e).text := by
  obtain ⟨bs, hbs⟩ := Option.isSome_iff_exists.mp (accepts_iff.mp ha).1
  obtain ⟨as, rest, hbase, hstart, hstop⟩ := slice?_eq_some_iff.mp hbs
  obtain ⟨front, back, hfront, hcut⟩ := h.cut
  have hle : byteLength (as ++ bs) ≤ byteLength front := by
    have := h.stop_le ha
    rw [byteLength_append]
    omega
  obtain ⟨ms, rfl, -⟩ := exists_append_of_byteLength_le (hbase.symm.trans hfront) hle
  have htext : p.text = as ++ bs ++ (ms ++ p.tail) := by
    rw [text, hfront, hcut, take?, cut?_byteLength_append]
    simp
  have hmiddle : p.rest e.span.stop = ms ++ p.tail := by
    have hslice : slice? p.base ⟨e.span.stop, p.cut⟩ = some ms :=
      slice?_eq_some_iff.mpr ⟨as ++ bs, back, hfront, by rw [hstop, byteLength_append],
        by simp only [hcut, byteLength_append]⟩
    rw [Progress.rest, hslice, Option.getD_some]
  have hnew : (p.advance e).text = as ++ e.newText.toList ++ (ms ++ p.tail) := by
    rw [advance_of_accepts ha, text, hmiddle]
    have hbefore : take? e.span.start p.base = some as := by
      rw [hstart, hbase, List.append_assoc, take?, cut?_byteLength_append]
      rfl
    simp only [hbefore, Option.getD_some, List.append_assoc]
  rw [hnew]
  exact splice?_eq_some_iff.mpr ⟨as, bs, ms ++ p.tail, htext, hstart, hstop, rfl⟩

/-! ## Every edit -/

theorem Progress.IsIntact.spliceEach?_eq (h : p.IsIntact) (es : List Edit) :
    spliceEach? p.base es p.text p.last = some ((es.foldlM step p).map Progress.text) := by
  induction es generalizing p with
  | nil => rfl
  | cons e es ih =>
    rw [spliceEach?, List.foldlM_cons, step_eq]
    split_ifs with hb
    · show (match p.obstacle? e with | some previous => _ | none => _) = _
      cases ho : p.obstacle? e with
      | some previous => rfl
      | none =>
        have ha := accepts_iff.mpr ⟨hb, obstacle?_eq_none_iff.mp ho⟩
        have hnext := ih (h.advance e)
        rw [base_advance, advance_of_accepts ha] at hnext
        rw [h.splice?_text ha, advance_of_accepts ha]
        exact hnext
    · rfl

/-- **Editing in place** never breaks off, and gives the same text or the same reason. -/
theorem spliceAll?_eq (text : String) (edits : List Edit) :
    spliceAll? text edits = some (applyAll text edits) := by
  have hstart : (Progress.start text.toList).text = text.toList := text_start _
  have hpass := (Progress.isIntact_start text.toList).spliceEach?_eq (sort edits)
  rw [hstart] at hpass
  rw [spliceAll?, applyAll]
  show (spliceEach? (Progress.start text.toList).base _ _
    (Progress.start text.toList).last).map _ = _
  rw [hpass]
  cases (sort edits).foldlM Progress.step (Progress.start text.toList) <;> rfl

/-! ## Some of the edits -/

/-- The edits in order of application, each with the verdict whether it is applied. -/
def Progress.verdicts : Progress → List Edit → List (Edit × Bool)
  | _, [] => []
  | p, e :: es => (e, p.accepts e.span) :: (p.advance e).verdicts es

/-- The edits that are applied. -/
def applied (verdicts : List (Edit × Bool)) : List Edit :=
  (verdicts.filter (·.2)).map Prod.fst

/-- The edits that are passed over. -/
def passedOver (verdicts : List (Edit × Bool)) : List Edit :=
  (verdicts.filter (!·.2)).map Prod.fst

theorem map_fst_verdicts (p : Progress) (es : List Edit) : (p.verdicts es).map Prod.fst = es := by
  induction es generalizing p with
  | nil => rfl
  | cons e es ih => rw [Progress.verdicts, List.map_cons, ih]

theorem applied_cons (e : Edit) (b : Bool) (verdicts : List (Edit × Bool)) :
    applied ((e, b) :: verdicts) = if b then e :: applied verdicts else applied verdicts := by
  cases b <;> simp [applied]

theorem passedOver_cons (e : Edit) (b : Bool) (verdicts : List (Edit × Bool)) :
    passedOver ((e, b) :: verdicts) =
      if b then passedOver verdicts else e :: passedOver verdicts := by
  cases b <;> simp [passedOver]

theorem snd_tryStep (state : Progress × List Edit) (e : Edit) : (tryStep state e).2 =
    if state.1.accepts e.span then state.2 else state.2 ++ [e] := by
  rw [tryStep, Progress.step_eq]
  split_ifs with hb ha ha
  · rw [Progress.obstacle?_eq_none_iff.mpr (Progress.accepts_iff.mp ha).2]
  · cases ho : state.1.obstacle? e with
    | some previous => rfl
    | none => exact absurd (Progress.accepts_iff.mpr
        ⟨hb, Progress.obstacle?_eq_none_iff.mp ho⟩) ha
  · exact absurd (Progress.accepts_iff.mp ha).1 hb
  · rfl

theorem foldl_tryStep (es : List Edit) (state : Progress × List Edit) : es.foldl tryStep state =
    (es.foldl Progress.advance state.1, state.2 ++ passedOver (state.1.verdicts es)) := by
  induction es generalizing state with
  | nil => simp [Progress.verdicts, passedOver]
  | cons e es ih =>
    rw [List.foldl_cons, ih, fst_tryStep, snd_tryStep, Progress.verdicts, passedOver_cons]
    split_ifs <;> simp

/-- Which edits of a text are applied. -/
def verdicts (text : String) (edits : List Edit) : List (Edit × Bool) :=
  (Progress.start text.toList).verdicts (sort edits)

theorem snd_applyPossible (text : String) (edits : List Edit) :
    (applyPossible text edits).2 = passedOver (verdicts text edits) := by
  rw [applyPossible, foldl_tryStep, List.nil_append]
  rfl

theorem Progress.IsIntact.spliceSome?_eq (h : p.IsIntact) (es : List Edit) :
    spliceSome? p.base es p.text (p.last.map Span.start) =
      some ((es.foldl Progress.advance p).text, passedOver (p.verdicts es)) := by
  induction es generalizing p with
  | nil => rfl
  | cons e es ih =>
    have hnext := ih (h.advance e)
    have haccepts : ((p.last.map Span.start).any (· < e.span.stop) || !inBounds p.base e.span) =
        !p.accepts e.span := by
      rw [Progress.accepts, Bool.not_and, Bool.or_comm]
      congr 1
      cases p.last with
      | none => rfl
      | some s => rw [Option.map_some, Option.any_some, Option.all_some, ← decide_not,
          decide_eq_decide, Nat.not_le]
    rw [base_advance] at hnext
    rw [spliceSome?, haccepts, List.foldl_cons, verdicts, passedOver_cons]
    cases ha : p.accepts e.span with
    | false =>
      rw [advance_of_not_accepts ha] at hnext ⊢
      rw [Bool.not_false, if_pos rfl, hnext]
      rfl
    | true =>
      rw [Bool.not_true, if_neg Bool.false_ne_true, h.splice?_text ha, if_pos rfl, Option.bind_some,
        ← hnext, advance_of_accepts ha]
      rfl

/-- **Editing in place** never breaks off where edits may be passed over. -/
theorem splicePossible?_eq (text : String) (edits : List Edit) :
    splicePossible? text edits = some (applyPossible text edits) := by
  have hstart : (Progress.start text.toList).text = text.toList := text_start _
  have hpass := (Progress.isIntact_start text.toList).spliceSome?_eq (sort edits)
  rw [hstart] at hpass
  have hboth : applyPossible text edits =
      ((applyPossible text edits).1, (applyPossible text edits).2) := rfl
  rw [hboth, fst_applyPossible, snd_applyPossible, splicePossible?]
  show (spliceSome? (Progress.start text.toList).base _ _
    ((Progress.start text.toList).last.map Span.start)).map _ = _
  rw [hpass]
  rfl

end Bindery.Edit
