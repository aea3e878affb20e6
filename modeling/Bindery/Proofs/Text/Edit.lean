import Mathlib.Data.List.Basic
import Mathlib.Tactic.SplitIfs
import Bindery.Text.Edit

/-!
# Editing a text piece by piece

Edits that keep to either side of a cut can be applied to the two pieces of the text apart.

* **`Edit.filter_sort`**: sorting is stable, so that some of the edits are sorted as they are among
  all of them.
* `Progress.rest`: what stands from an offset on.
* `Progress.advance_below`, `Progress.Beside`: edits behind the cut, and edits before it.
* **`Edit.applyPossible_append`**: both pieces.
-/

namespace Bindery

open Text

/-! ## The order of application -/

theorem Span.appliedFirst_iff {s t : Span} :
    s.appliedFirst t = true ↔ t.stop < s.stop ∨ s.stop = t.stop ∧ t.start ≤ s.start := by
  simp [Span.appliedFirst]

theorem Span.appliedFirst_trans (s t u : Span) (h : s.appliedFirst t = true)
    (h' : t.appliedFirst u = true) : s.appliedFirst u = true := by
  rw [appliedFirst_iff] at *
  omega

theorem Span.appliedFirst_total (s t : Span) :
    (s.appliedFirst t || t.appliedFirst s) = true := by
  rw [Bool.or_eq_true, appliedFirst_iff, appliedFirst_iff]
  omega

namespace Edit

theorem append_inj_of_forall {α : Type} {P : α → Prop} {u v u' v' : List α}
    (h : u ++ v = u' ++ v') (hu : ∀ x ∈ u, P x) (hv : ∀ x ∈ v, ¬P x) (hu' : ∀ x ∈ u', P x)
    (hv' : ∀ x ∈ v', ¬P x) : u = u' ∧ v = v' := by
  rcases List.append_eq_append_iff.mp h with ⟨m, rfl, rfl⟩ | ⟨m, rfl, rfl⟩
  · cases m with
    | nil => simp
    | cons x m =>
      exact absurd (hu' x (List.mem_append_right _ List.mem_cons_self)) (hv x List.mem_cons_self)
  · cases m with
    | nil => simp
    | cons x m =>
      exact absurd (hu x (List.mem_append_right _ List.mem_cons_self)) (hv' x List.mem_cons_self)

theorem pairwise_sort (edits : List Edit) :
    (sort edits).Pairwise fun a b => a.span.appliedFirst b.span = true :=
  List.pairwise_mergeSort (fun a b c => Span.appliedFirst_trans a.span b.span c.span)
    (fun a b => Span.appliedFirst_total a.span b.span) edits

/-- A newcomer is applied after those that are applied first, and before all others. -/
theorem sort_cons (a : Edit) (edits : List Edit) : ∃ before after,
    sort (a :: edits) = before ++ a :: after ∧ sort edits = before ++ after ∧
      (∀ b ∈ before, ¬a.span.appliedFirst b.span = true) ∧
        ∀ b ∈ after, ¬¬a.span.appliedFirst b.span = true := by
  obtain ⟨before, after, hcons, hsort, hbefore⟩ := List.mergeSort_cons
    (fun a b c => Span.appliedFirst_trans a.span b.span c.span)
    (fun a b => Span.appliedFirst_total a.span b.span) a edits
  refine ⟨before, after, hcons, hsort, fun b hb => by simpa using hbefore b hb, fun b hb => ?_⟩
  have hp := pairwise_sort (a :: edits)
  rw [show sort (a :: edits) = before ++ a :: after from hcons, List.pairwise_append,
    List.pairwise_cons] at hp
  exact not_not.mpr (hp.2.1.1 b hb)

/-- **Some of the edits** are sorted as they are among all of them. -/
theorem filter_sort (q : Edit → Bool) (edits : List Edit) :
    (sort edits).filter q = sort (edits.filter q) := by
  induction edits with
  | nil => simp [sort]
  | cons a edits ih =>
    obtain ⟨before, after, hcons, hsort, hbefore, hafter⟩ := sort_cons a edits
    rw [hsort, List.filter_append] at ih
    rw [hcons, List.filter_append]
    by_cases ha : q a = true
    · obtain ⟨before', after', hcons', hsort', hbefore', hafter'⟩ := sort_cons a (edits.filter q)
      rw [List.filter_cons_of_pos ha, List.filter_cons_of_pos ha, hcons']
      have hsame : before.filter q ++ after.filter q = before' ++ after' := ih.trans hsort'
      obtain ⟨hb, hf⟩ := append_inj_of_forall hsame
        (fun b hb => hbefore b (List.mem_of_mem_filter hb))
        (fun b hb => hafter b (List.mem_of_mem_filter hb)) hbefore' hafter'
      rw [hb, hf]
    · rw [List.filter_cons_of_neg ha, List.filter_cons_of_neg ha, ih]

/-- Edits of which some are always applied before the others. -/
theorem sort_eq_append {q : Edit → Bool} {edits : List Edit}
    (h : ∀ a ∈ edits, ∀ b ∈ edits, q a = false → q b = true →
      ¬a.span.appliedFirst b.span = true) :
    sort edits = sort (edits.filter q) ++ sort (edits.filter (!q ·)) := by
  have hsplit : ∀ es : List Edit, es.Pairwise (fun a b => q b = true → q a = true) →
      es = es.filter q ++ es.filter (!q ·) := by
    intro es
    induction es with
    | nil => exact fun _ => rfl
    | cons a es ih =>
      intro hp
      rw [List.pairwise_cons] at hp
      by_cases ha : q a = true
      · rw [List.filter_cons_of_pos ha, List.filter_cons_of_neg (by simp [ha]), List.cons_append,
          ← ih hp.2]
      · have hno : ∀ b ∈ es, q b = false := fun b hb => by simpa using mt (hp.1 b hb) ha
        have hall : es.filter q = [] := List.filter_eq_nil_iff.mpr fun b hb => by simp [hno b hb]
        rw [List.filter_cons_of_neg ha, List.filter_cons_of_pos (by simpa using ha), hall,
          List.nil_append, List.cons.injEq]
        exact ⟨rfl, (List.filter_eq_self.mpr fun b hb => by simp [hno b hb]).symm⟩
  have hmem : ∀ {a}, a ∈ sort edits → a ∈ edits := fun ha => (List.mergeSort_perm _ _).mem_iff.mp ha
  rw [← filter_sort, ← filter_sort]
  refine hsplit _ ((pairwise_sort edits).imp_of_mem fun {a b} ha hb hab hqb => ?_)
  by_contra hqa
  exact h a (hmem ha) b (hmem hb) (by simpa using hqa) hqb hab

end Edit

/-! ## Places in a text -/

namespace Text

/-- An offset between two characters. -/
def IsCut (cs : List Char) (n : Nat) : Prop := ∃ as bs, cs = as ++ bs ∧ n = byteLength as

variable {as bs cs : List Char} {m n : Nat} {s : Span}

theorem isCut_zero (cs : List Char) : IsCut cs 0 := ⟨[], cs, rfl, rfl⟩

theorem isCut_byteLength (cs : List Char) : IsCut cs (byteLength cs) := ⟨cs, [], by simp, rfl⟩

theorem IsCut.le (h : IsCut cs n) : n ≤ byteLength cs := by
  obtain ⟨as, bs, rfl, rfl⟩ := h
  rw [byteLength_append]
  omega

theorem isSome_slice?_iff :
    (slice? cs s).isSome = true ↔ IsCut cs s.start ∧ IsCut cs s.stop ∧ s.start ≤ s.stop := by
  rw [Option.isSome_iff_exists]
  constructor
  · rintro ⟨ds, hd⟩
    obtain ⟨as, bs, rfl, hs, he⟩ := slice?_eq_some_iff.mp hd
    refine ⟨⟨as, ds ++ bs, by simp, hs⟩, ⟨as ++ ds, bs, rfl, by rw [he, byteLength_append]⟩, ?_⟩
    omega
  · rintro ⟨⟨as, bs, rfl, hs⟩, ⟨as', bs', h, he⟩, hle⟩
    rw [hs, he] at hle
    obtain ⟨ds, rfl, hd⟩ := exists_append_of_byteLength_le h hle
    exact ⟨ds, slice?_eq_some_iff.mpr ⟨as, bs', by simp [hd], hs, by rw [he, byteLength_append]⟩⟩

theorem slice?_append_right (as bs : List Char) (i j : Nat) :
    slice? (as ++ bs) ⟨byteLength as + i, byteLength as + j⟩ = slice? bs ⟨i, j⟩ := by
  refine Option.ext fun ds => ?_
  rw [slice?_eq_some_iff, slice?_eq_some_iff]
  constructor
  · rintro ⟨cs, es, h, hs, he⟩
    have hle : byteLength as ≤ byteLength cs := by simp only at hs; omega
    rw [List.append_assoc] at h
    obtain ⟨ms, rfl, hm⟩ := exists_append_of_byteLength_le h hle
    rw [byteLength_append] at hs he
    exact ⟨ms, es, by rw [hm, List.append_assoc], by simp only at *; omega, by simp only at *; omega⟩
  · rintro ⟨cs, es, rfl, hs, he⟩
    refine ⟨as ++ cs, es, by simp, ?_, ?_⟩
    · rw [byteLength_append]
      simp only at *
      omega
    · rw [byteLength_append]
      simp only at *
      omega

theorem slice?_append_left (bs : List Char) (h : s.stop ≤ byteLength as) :
    slice? (as ++ bs) s = slice? as s := by
  refine Option.ext fun ds => ?_
  rw [slice?_eq_some_iff, slice?_eq_some_iff]
  constructor
  · rintro ⟨cs, es, hc, hs, he⟩
    have hle : byteLength (cs ++ ds) ≤ byteLength as := by rw [byteLength_append]; omega
    obtain ⟨ms, hm, -⟩ := exists_append_of_byteLength_le hc.symm hle
    exact ⟨cs, ms, hm, hs, he⟩
  · rintro ⟨cs, es, rfl, hs, he⟩
    exact ⟨cs, es ++ bs, by simp, hs, he⟩

theorem slice?_append (hm : IsCut as m) (hn : IsCut bs n) :
    (slice? (as ++ bs) ⟨m, byteLength as + n⟩).getD [] =
      (slice? as ⟨m, byteLength as⟩).getD [] ++ (slice? bs ⟨0, n⟩).getD [] := by
  obtain ⟨as, ms, rfl, rfl⟩ := hm
  obtain ⟨ns, bs, rfl, rfl⟩ := hn
  have hleft : slice? (as ++ ms) ⟨byteLength as, byteLength (as ++ ms)⟩ = some ms :=
    slice?_eq_some_iff.mpr ⟨as, [], by simp, rfl, byteLength_append _ _⟩
  have hright : slice? (ns ++ bs) ⟨0, byteLength ns⟩ = some ns :=
    slice?_eq_some_iff.mpr ⟨[], bs, rfl, rfl, by simp [byteLength]⟩
  have hboth : slice? (as ++ ms ++ (ns ++ bs)) ⟨byteLength as, byteLength (as ++ ms) +
      byteLength ns⟩ = some (ms ++ ns) :=
    slice?_eq_some_iff.mpr ⟨as, bs, by simp, rfl, by simp only [byteLength_append]; omega⟩
  rw [hleft, hright, hboth]
  rfl

end Text

namespace Edit

/-! ## One edit -/

/-- What stands from an offset of the base text on. -/
def Progress.rest (p : Progress) (n : Nat) : List Char :=
  (slice? p.base ⟨n, p.cut⟩).getD [] ++ p.tail

theorem Progress.text_eq (p : Progress) : p.text = p.rest 0 := by
  rw [text, rest, slice?, if_pos (Nat.zero_le _), drop?, cut?_zero]
  rfl

/-- An edit can be applied now. -/
def Progress.accepts (p : Progress) (s : Span) : Bool :=
  inBounds p.base s && p.last.all fun previous => s.stop ≤ previous.start

/-- Apply one more edit, if it can be applied. -/
def Progress.advance (p : Progress) (e : Edit) : Progress :=
  if p.accepts e.span then
    ⟨p.base, e.span.start, e.newText.toList ++ p.rest e.span.stop, some e.span⟩
  else p

theorem fst_tryStep (state : Progress × List Edit) (e : Edit) :
    (tryStep state e).1 = state.1.advance e := by
  obtain ⟨⟨base, cut, tail, last⟩, skipped⟩ := state
  rw [tryStep, Progress.step, Progress.advance, Progress.accepts]
  by_cases hb : inBounds base e.span = true
  · cases last with
    | none => simp [hb, Progress.step.write, Progress.rest]
    | some previous =>
      by_cases ho : previous.start < e.span.stop
      · simp [hb, ho, Nat.not_le.mpr ho]
      · simp [hb, ho, Nat.not_lt.mp ho, Progress.step.write, Progress.rest]
  · simp [hb]

theorem fst_applyPossible (text : String) (edits : List Edit) : (applyPossible text edits).1 =
    String.ofList ((sort edits).foldl Progress.advance (Progress.start text.toList)).text := by
  have hfold : ∀ (es : List Edit) (state : Progress × List Edit),
      (es.foldl tryStep state).1 = es.foldl Progress.advance state.1 := by
    intro es
    induction es with
    | nil => exact fun _ => rfl
    | cons e es ih =>
      intro state
      rw [List.foldl_cons, ih, fst_tryStep, List.foldl_cons]
  rw [applyPossible, hfold]

/-- What has been written starts between two characters of the base text. -/
theorem Progress.isCut_advance {p : Progress} (h : IsCut p.base p.cut) (e : Edit) :
    IsCut (p.advance e).base (p.advance e).cut := by
  unfold advance
  split_ifs with ha
  · rw [accepts, Bool.and_eq_true, inBounds, isSome_slice?_iff] at ha
    exact ha.1.1
  · exact h

theorem Progress.isCut_advanceAll {p : Progress} (h : IsCut p.base p.cut) (es : List Edit) :
    IsCut (es.foldl advance p).base (es.foldl advance p).cut :=
  List.foldlRecOn (motive := fun p : Progress => IsCut p.base p.cut) es _ h
    fun _ hp e _ => isCut_advance hp e

@[simp] theorem Progress.base_advance (p : Progress) (e : Edit) : (p.advance e).base = p.base := by
  unfold advance
  split_ifs <;> rfl

/-! ## Edits behind a cut -/

/-- The same edit of a text that has `n` more bytes in front. -/
def shift (n : Nat) (e : Edit) : Edit := { e with span := ⟨n + e.span.start, n + e.span.stop⟩ }

/-- The progress in a text that has more in front. -/
def Progress.below (p : Progress) (as : List Char) : Progress :=
  ⟨as ++ p.base, byteLength as + p.cut, p.tail,
    p.last.map fun s => ⟨byteLength as + s.start, byteLength as + s.stop⟩⟩

theorem Progress.advance_below (p : Progress) (as : List Char) (e : Edit) :
    (p.below as).advance (e.shift (byteLength as)) = (p.advance e).below as := by
  have haccepts : (p.below as).accepts (e.shift (byteLength as)).span = p.accepts e.span := by
    simp only [accepts, below, inBounds, shift, slice?_append_right, Option.all_map]
    simp
  have hrest : (p.below as).rest (byteLength as + e.span.stop) = p.rest e.span.stop := by
    simp only [rest, below, slice?_append_right]
  unfold advance
  rw [haccepts]
  split_ifs
  · show Progress.mk _ _ (_ ++ (p.below as).rest (byteLength as + e.span.stop)) _ = _
    rw [hrest]
    rfl
  · rfl

theorem Progress.advanceAll_below (p : Progress) (as : List Char) (es : List Edit) :
    (es.map (shift (byteLength as))).foldl advance (p.below as) =
      (es.foldl advance p).below as := by
  induction es generalizing p with
  | nil => rfl
  | cons e es ih => rw [List.map_cons, List.foldl_cons, advance_below, ih, List.foldl_cons]

theorem sort_shift (n : Nat) (edits : List Edit) :
    sort (edits.map (shift n)) = (sort edits).map (shift n) := by
  refine (List.map_mergeSort fun a _ b _ => ?_).symm
  rw [Bool.eq_iff_iff, Span.appliedFirst_iff, Span.appliedFirst_iff]
  simp only [shift]
  omega

/-! ## Edits before a cut -/

/-- **The progress `p` goes on before a cut like `l`**, which knows the first piece only; `r` is what
has become of the second. -/
structure Progress.Beside (r : List Char) (l p : Progress) : Prop where
  base : ∃ bs, p.base = l.base ++ bs
  last : ∀ n ≤ byteLength l.base, p.last.all (n ≤ ·.start) = l.last.all (n ≤ ·.start)
  cut : ∀ n ≤ byteLength l.base, l.last.all (n ≤ ·.start) = true → n ≤ l.cut
  rest : ∀ n ≤ l.cut, IsCut l.base n → p.rest n = l.rest n ++ r

section Beside

variable {r : List Char} {l p : Progress}

theorem Progress.Beside.advance (h : l.Beside r p) {e : Edit}
    (he : e.span.stop ≤ byteLength l.base) : (l.advance e).Beside r (p.advance e) := by
  obtain ⟨bs, hb⟩ := h.base
  have haccepts : p.accepts e.span = l.accepts e.span := by
    rw [accepts, accepts, inBounds, inBounds, hb, slice?_append_left bs he, h.last _ he]
  unfold Progress.advance
  rw [haccepts]
  split_ifs with ha
  · rw [accepts, Bool.and_eq_true, inBounds, isSome_slice?_iff] at ha
    obtain ⟨⟨-, hstop, hle⟩, hlast⟩ := ha
    refine ⟨⟨bs, hb⟩, fun n _ => rfl, fun n _ hn => by simpa using hn, fun n hn _ => ?_⟩
    have htail := h.rest _ (h.cut _ he hlast) hstop
    have hslice : slice? p.base ⟨n, e.span.start⟩ = slice? l.base ⟨n, e.span.start⟩ := by
      rw [hb, slice?_append_left bs (by simp only; omega)]
    simp only [Progress.rest, hslice, List.append_assoc] at htail ⊢
    rw [htail]
  · exact h

theorem Progress.Beside.advanceAll (h : l.Beside r p) {es : List Edit}
    (he : ∀ e ∈ es, e.span.stop ≤ byteLength l.base) :
    (es.foldl Progress.advance l).Beside r (es.foldl Progress.advance p) := by
  induction es generalizing l p with
  | nil => exact h
  | cons e es ih =>
    rw [List.forall_mem_cons] at he
    refine ih (h.advance he.1) fun e' he' => ?_
    rw [l.base_advance]
    exact he.2 e' he'

theorem Progress.Beside.text (h : l.Beside r p) : p.text = l.text ++ r := by
  rw [p.text_eq, l.text_eq]
  exact h.rest 0 (Nat.zero_le _) (isCut_zero _)

/-- Once the edits behind a cut have been applied, the first piece is still as it was. -/
theorem Progress.beside_below {q : Progress} (hq : IsCut q.base q.cut) (as : List Char) :
    (Progress.start as).Beside q.text (q.below as) := by
  refine ⟨⟨q.base, rfl⟩, fun n hn => ?_, fun n hn _ => hn, fun n _ hc => ?_⟩
  · show (q.last.map _).all _ = true
    rw [Option.all_map, Option.all_eq_true]
    intro s _
    simp only [decide_eq_true_eq]
    exact Nat.le_trans hn (Nat.le_add_right _ _)
  · have hslice := @slice?_append as _ _ _ hc hq
    simp only [rest, below, start, q.text_eq, List.append_nil] at hslice ⊢
    rw [hslice, List.append_assoc]

end Beside

/-! ## Two pieces -/

/-- The same edit of a text that has `n` bytes less in front. -/
def unshift (n : Nat) (e : Edit) : Edit := { e with span := ⟨e.span.start - n, e.span.stop - n⟩ }

/-- An edit keeps to one side of an offset. -/
def Clears (e : Edit) (n : Nat) : Prop := e.span.stop ≤ n ∨ n ≤ e.span.start ∧ n < e.span.stop

section Pieces

variable {n : Nat} {edits : List Edit} (h : ∀ e ∈ edits, e.Clears n)

/-- Edits of the second piece are applied before those of the first. -/
theorem sort_eq_sides (n : Nat) (edits : List Edit) : sort edits =
    sort (edits.filter (n < ·.span.stop)) ++ sort (edits.filter (·.span.stop ≤ n)) := by
  have hleft : edits.filter (fun e => !decide (n < e.span.stop)) =
      edits.filter (·.span.stop ≤ n) :=
    List.filter_congr fun e _ => by rw [← decide_not, decide_eq_decide, Nat.not_lt]
  rw [← hleft]
  refine sort_eq_append fun a _ b _ ha hb hab => ?_
  rw [Span.appliedFirst_iff] at hab
  simp only [decide_eq_false_iff_not, decide_eq_true_eq] at ha hb
  omega

include h in
theorem shift_unshift : ((edits.filter (n < ·.span.stop)).map (unshift n)).map (shift n) =
    edits.filter (n < ·.span.stop) := by
  rw [List.map_map]
  refine (List.map_congr_left fun e he => ?_).trans (List.map_id _)
  obtain ⟨he, hlt⟩ := List.mem_filter.mp he
  have hlt : n < e.span.stop := by simpa using hlt
  have hle : n ≤ e.span.start := ((h e he).resolve_left (Nat.not_le.mpr hlt)).1
  obtain ⟨⟨start, stop⟩, text⟩ := e
  simp only [Function.comp_apply, shift, unshift, id_eq, Edit.mk.injEq, Span.mk.injEq,
    and_true] at *
  omega

end Pieces

/-- **Two pieces of a text** are edited apart where every edit keeps to one of them. -/
theorem applyPossible_append {as bs : List Char} {edits : List Edit}
    (h : ∀ e ∈ edits, e.Clears (byteLength as)) :
    (applyPossible (String.ofList (as ++ bs)) edits).1 =
      (applyPossible (String.ofList as) (edits.filter (·.span.stop ≤ byteLength as))).1 ++
        (applyPossible (String.ofList bs)
          ((edits.filter (byteLength as < ·.span.stop)).map (unshift (byteLength as)))).1 := by
  set right := edits.filter (byteLength as < ·.span.stop)
  set left := edits.filter (·.span.stop ≤ byteLength as)
  have hstart : Progress.start (as ++ bs) = (Progress.start bs).below as := by
    simp [Progress.start, Progress.below, byteLength_append]
  -- The second piece is finished before anything happens to the first.
  have hcut : IsCut (Progress.start bs).base (Progress.start bs).cut := isCut_byteLength bs
  have hq := Progress.isCut_advanceAll hcut (sort (right.map (unshift (byteLength as))))
  have hbeside := (Progress.beside_below hq as).advanceAll fun e (he : e ∈ sort left) => by
    have hm := (List.mergeSort_perm _ _).mem_iff.mp he
    show e.span.stop ≤ byteLength as
    simpa using (List.mem_filter.mp hm).2
  have hsort : sort edits =
      (sort (right.map (unshift (byteLength as)))).map (shift (byteLength as)) ++ sort left := by
    rw [← sort_shift, shift_unshift h, sort_eq_sides (byteLength as)]
  rw [fst_applyPossible, fst_applyPossible, fst_applyPossible, String.toList_ofList,
    String.toList_ofList, String.toList_ofList, ← String.ofList_append, hsort, List.foldl_append,
    hstart, Progress.advanceAll_below, hbeside.text]

/-! ## Simple lists of edits -/

theorem text_start (cs : List Char) : (Progress.start cs).text = cs := by
  have hslice : slice? cs ⟨0, byteLength cs⟩ = some cs :=
    slice?_eq_some_iff.mpr ⟨[], [], by simp, rfl, by simp [byteLength]⟩
  rw [Progress.text_eq, Progress.rest]
  simp [Progress.start, hslice]

theorem applyPossible_nil (text : String) : (applyPossible text []).1 = text := by
  rw [fst_applyPossible, show sort [] = [] by simp [sort], List.foldl_nil, text_start,
    String.ofList_toList]

/-- Edits that can no longer be applied are passed over. -/
theorem Progress.advanceAll_eq_self {p : Progress} {es : List Edit}
    (h : ∀ e ∈ es, p.accepts e.span = false) : es.foldl advance p = p :=
  List.foldlRecOn (motive := (· = p)) es _ rfl fun p' hp e he => by
    rw [hp, advance, if_neg (by simp [h e he])]

/-- The whole text is replaced, however often it is said. -/
theorem applyPossible_whole {text new : String} {edits : List Edit} (hne : edits ≠ [])
    (hlen : 0 < byteLength text.toList)
    (h : ∀ e ∈ edits, e = ⟨⟨0, byteLength text.toList⟩, new⟩) :
    (applyPossible text edits).1 = new := by
  set whole : Edit := ⟨⟨0, byteLength text.toList⟩, new⟩ with hwhole
  have hperm := List.mergeSort_perm edits fun a b => a.span.appliedFirst b.span
  have hall : ∀ e ∈ sort edits, e = whole := fun e he => h e (hperm.mem_iff.mp he)
  have hsome : sort edits ≠ [] := fun hn => hne (List.Perm.nil_eq (hn ▸ hperm)).symm
  obtain ⟨e, es, hes⟩ := List.exists_cons_of_ne_nil hsome
  rw [hes, List.forall_mem_cons] at hall
  have hb : inBounds text.toList whole.span = true :=
    isSome_slice?_iff.mpr ⟨isCut_zero _, isCut_byteLength _, Nat.zero_le _⟩
  have hend : slice? text.toList ⟨byteLength text.toList, byteLength text.toList⟩ = some [] :=
    slice?_eq_some_iff.mpr ⟨text.toList, [], by simp, rfl, by simp [byteLength]⟩
  have hfirst : (Progress.start text.toList).advance whole =
      ⟨text.toList, 0, new.toList, some whole.span⟩ := by
    have ha : (Progress.start text.toList).accepts whole.span = true := by
      rw [Progress.accepts, Bool.and_eq_true]
      exact ⟨hb, rfl⟩
    rw [Progress.advance, if_pos ha, Progress.rest]
    simp [Progress.start, hwhole, hend]
  have hlater : ∀ e ∈ es, Progress.accepts ⟨text.toList, 0, new.toList, some whole.span⟩ e.span =
      false := by
    intro e he
    rw [hall.2 e he, Progress.accepts, Bool.and_eq_false_iff]
    exact .inr (decide_eq_false (Nat.not_le.mpr hlen))
  rw [fst_applyPossible, hes, hall.1, List.foldl_cons, hfirst,
    Progress.advanceAll_eq_self hlater, Progress.text_eq, Progress.rest]
  have hzero : slice? text.toList ⟨0, 0⟩ = some [] :=
    slice?_eq_some_iff.mpr ⟨[], text.toList, by simp, rfl, by simp [byteLength]⟩
  rw [hzero, Option.getD_some, List.nil_append, String.ofList_toList]

end Edit

end Bindery
