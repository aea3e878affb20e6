import Mathlib.Data.List.Induction
import Mathlib.Data.List.Nodup
import Bindery.Proofs.Text.Splice

/-!
# Edits as one substitution

All edits of a text at once: the text is read from left to right, and what each edit covers is
replaced. The order in which the edits are given matters for insertions at one offset only.

* `Span.Fits`, `Span.Apart`: the edits that can be applied, and applied together.
* `Edit.Substitutes`: a text read with edits that are arranged from left to right.
* `Edit.Arranges`: the arrangement; **`Edit.Arranges.unique`**: there is one.
* `Progress.Admits`: a pass that comes to its end; **`Edit.isOk_applyAll_iff`**.
* `Edit.outcome_congr`: the reasons why edits cannot be applied depend on their spans only.
* **`Edit.substitutes_applyAll`**: applying edits is substitution.
-/

namespace Bindery

open Text

/-! ## Spans that can be replaced -/

/-- A span of whole characters of a text, not reversed. -/
def Span.Fits (s : Span) (text : String) : Prop :=
  s.start ≤ s.stop ∧ s.stop ≤ text.utf8ByteSize ∧ String.Pos.Raw.IsValid text ⟨s.start⟩ ∧
    String.Pos.Raw.IsValid text ⟨s.stop⟩

/-- One of the spans ends where the other one starts, or before. -/
def Span.Apart (s t : Span) : Prop := s.stop ≤ t.start ∨ t.stop ≤ s.start

theorem Span.Apart.symm {s t : Span} (h : s.Apart t) : t.Apart s := Or.symm h

theorem Span.Fits.le {s : Span} {text : String} (h : s.Fits text) : s.start ≤ s.stop := h.1

theorem Span.appliedFirst_antisymm {s t : Span} (h : s.appliedFirst t = true)
    (h' : t.appliedFirst s = true) : s = t := by
  rw [appliedFirst_iff] at h h'
  obtain ⟨i, j⟩ := s
  obtain ⟨k, l⟩ := t
  simp only [Span.mk.injEq] at *
  omega

/-- Two spans that lie behind one another are one, and empty. -/
theorem Span.eq_of_stop_le {s t : Span} (hs : s.start ≤ s.stop) (ht : t.start ≤ t.stop)
    (hst : s.stop ≤ t.start) (hts : t.stop ≤ s.start) : s = t := by
  obtain ⟨i, j⟩ := s
  obtain ⟨k, l⟩ := t
  simp only [Span.mk.injEq] at *
  omega

/-- Of two spans that are apart, the one that is applied first lies behind the other. -/
theorem Span.Apart.stop_le {s t : Span} (h : s.Apart t) (ho : s.appliedFirst t = true)
    (ht : t.start ≤ t.stop) : t.stop ≤ s.start := by
  rw [appliedFirst_iff] at ho
  rcases h with h | h
  · omega
  · exact h

/-- A text is cut in one way at an offset. -/
theorem Text.append_inj_of_byteLength_eq {as bs as' bs' : List Char} (h : as ++ bs = as' ++ bs')
    (hlen : byteLength as = byteLength as') : as = as' ∧ bs = bs' := by
  obtain ⟨ms, rfl, hms⟩ := exists_append_of_byteLength_le h (Nat.le_of_eq hlen)
  rw [byteLength_append] at hlen
  obtain rfl := eq_nil_of_byteLength_eq_zero (by omega : byteLength ms = 0)
  exact ⟨(List.append_nil as).symm, hms⟩

namespace Edit

variable {p q : Progress} {e : Edit} {es es' edits edits' : List Edit} {text : String}

theorem inBounds_iff {s : Span} : inBounds text.toList s = true ↔ s.Fits text := by
  rw [inBounds, isSome_slice?_iff, Span.Fits, isValid_iff, isValid_iff, ← byteLength_toList]
  constructor
  · rintro ⟨hstart, hstop, hle⟩
    exact ⟨hle, hstop.le, hstart, hstop⟩
  · rintro ⟨hle, -, hstart, hstop⟩
    exact ⟨hstart, hstop, hle⟩

theorem mem_sort : e ∈ sort edits ↔ e ∈ edits := (List.mergeSort_perm _ _).mem_iff

/-! ## Reading a text from left to right -/

/-- **The text `cs`, which starts at offset `n`, becomes `ds` by edits from left to right**: what is
in front of an edit is kept, what it covers is replaced. -/
inductive Substitutes : Nat → List Char → List Edit → List Char → Prop where
  | nil (n : Nat) (cs : List Char) : Substitutes n cs [] cs
  | cons {n : Nat} {e : Edit} {es : List Edit} (kept old : List Char) {rest new : List Char}
      (hstart : e.span.start = n + byteLength kept)
      (hstop : e.span.stop = e.span.start + byteLength old)
      (h : Substitutes e.span.stop rest es new) :
      Substitutes n (kept ++ old ++ rest) (e :: es) (kept ++ e.newText.toList ++ new)

theorem Substitutes.unique {n : Nat} {cs ds ds' : List Char} (h : Substitutes n cs es ds)
    (h' : Substitutes n cs es ds') : ds = ds' := by
  generalize hcs : cs = cs' at h'
  induction h generalizing ds' cs' with
  | nil n cs =>
    cases h'
    exact hcs
  | @cons n e es kept old rest new hstart hstop _ ih =>
    cases h' with
    | cons kept' old' hstart' hstop' h' =>
      rw [List.append_assoc, List.append_assoc] at hcs
      obtain ⟨rfl, hback⟩ := append_inj_of_byteLength_eq hcs (by omega)
      obtain ⟨rfl, hrest⟩ := append_inj_of_byteLength_eq hback (by omega)
      rw [ih _ hrest h']

/-- **Edits from left to right**, insertions at one offset in reverse order. -/
structure Arranges (edits es : List Edit) : Prop where
  perm : es.Perm edits
  ordered : es.Pairwise fun a b => a.span.stop ≤ b.span.start
  insertions : ∀ n, es.filter (·.span = ⟨n, n⟩) = (edits.filter (·.span = ⟨n, n⟩)).reverse

theorem eq_of_filter_eq {α β : Type} [DecidableEq β] {f : α → β} {l l' : List α}
    (hmap : l.map f = l'.map f) (h : ∀ k, l.filter (f · = k) = l'.filter (f · = k)) : l = l' := by
  induction l generalizing l' with
  | nil => exact (List.map_eq_nil_iff.mp hmap.symm).symm
  | cons a l ih =>
    cases l' with
    | nil => cases hmap
    | cons b l' =>
      rw [List.map_cons, List.map_cons, List.cons.injEq] at hmap
      have hfirst := h (f a)
      rw [List.filter_cons_of_pos (by simp), List.filter_cons_of_pos (by simp [hmap.1]),
        List.cons.injEq] at hfirst
      rw [hfirst.1, ih hmap.2 fun k => ?_]
      by_cases hk : f a = k
      · exact hk ▸ hfirst.2
      · have hrest := h k
        rwa [List.filter_cons_of_neg (by simpa using hk),
          List.filter_cons_of_neg (by simpa [← hfirst.1] using hk)] at hrest

theorem length_filter_le_one {s : Span} (hne : s.start < s.stop)
    (ho : es.Pairwise fun a b => a.span.stop ≤ b.span.start) :
    (es.filter (·.span = s)).length ≤ 1 := by
  have hp := ho.filter (·.span = s)
  have hspan : ∀ e ∈ es.filter (·.span = s), e.span = s := fun e he => by
    simpa using (List.mem_filter.mp he).2
  cases hl : es.filter (·.span = s) with
  | nil => exact Nat.zero_le 1
  | cons a l =>
    cases l with
    | nil => exact Nat.le_refl 1
    | cons b l =>
      rw [hl, List.pairwise_cons] at hp
      rw [hl, List.forall_mem_cons, List.forall_mem_cons] at hspan
      have := hp.1 b List.mem_cons_self
      rw [hspan.1, hspan.2.1] at this
      omega

theorem eq_of_perm_of_length_le_one {α : Type} {l l' : List α} (h : l.Perm l')
    (hlen : l.length ≤ 1) : l = l' := by
  match l, hlen with
  | [], _ => exact h.nil_eq
  | [a], _ => exact h.singleton_eq

/-- **There is one arrangement** of the edits, in whatever order they are given. -/
theorem Arranges.unique (h : Arranges edits es) (h' : Arranges edits' es')
    (hp : edits'.Perm edits) (hle : ∀ e ∈ edits, e.span.start ≤ e.span.stop)
    (hi : ∀ n, edits'.filter (·.span = ⟨n, n⟩) = edits.filter (·.span = ⟨n, n⟩)) : es = es' := by
  have hperm : es.Perm es' := h.perm.trans (hp.symm.trans h'.perm.symm)
  have hspans : es.map span = es'.map span := by
    have hordered : ∀ {l : List Edit}, l.Pairwise (fun a b => a.span.stop ≤ b.span.start) →
        (l.map span).Pairwise fun s t => s.stop ≤ t.start := fun h => by rwa [List.pairwise_map]
    refine List.Perm.eq_of_pairwise (fun s t hs ht hst hts => ?_) (hordered h.ordered)
      (hordered h'.ordered) (hperm.map span)
    obtain ⟨a, ha, rfl⟩ := List.mem_map.mp hs
    obtain ⟨b, hb, rfl⟩ := List.mem_map.mp ht
    exact Span.eq_of_stop_le (hle a (h.perm.mem_iff.mp ha))
      (hle b (h.perm.mem_iff.mp (hperm.mem_iff.mpr hb))) hst hts
  refine eq_of_filter_eq hspans fun s => ?_
  by_cases hs : s.start < s.stop
  · exact eq_of_perm_of_length_le_one (hperm.filter _) (length_filter_le_one hs h.ordered)
  · by_cases hn : s.start = s.stop
    · obtain ⟨n, m⟩ := s
      obtain rfl : n = m := hn
      rw [h.insertions, h'.insertions, hi]
    · have hnone : ∀ l : List Edit, l.Perm edits → l.filter (·.span = s) = [] := fun l hl =>
        List.filter_eq_nil_iff.mpr fun e he hes => by
          obtain rfl : e.span = s := by simpa using hes
          have := hle e (hl.mem_iff.mp he)
          omega
      rw [hnone es h.perm, hnone es' (hperm.symm.trans h.perm)]

/-! ## A pass over edits -/

/-- **All of the edits can be applied in turn.** -/
structure Progress.Admits (p : Progress) (es : List Edit) : Prop where
  fit : ∀ e ∈ es, inBounds p.base e.span = true
  clear : ∀ e ∈ es, ∀ s ∈ p.last, e.span.stop ≤ s.start
  ordered : es.Pairwise fun a b => b.span.stop ≤ a.span.start

theorem Progress.admits_cons :
    p.Admits (e :: es) ↔ p.accepts e.span = true ∧ (p.advance e).Admits es := by
  constructor
  · rintro ⟨hfit, hclear, ho⟩
    rw [List.forall_mem_cons] at hfit hclear
    rw [List.pairwise_cons] at ho
    have ha := accepts_iff.mpr ⟨hfit.1, hclear.1⟩
    refine ⟨ha, ?_⟩
    rw [advance_of_accepts ha]
    refine ⟨hfit.2, fun e' he' s hs => ?_, ho.2⟩
    cases hs
    exact ho.1 e' he'
  · rintro ⟨ha, h⟩
    rw [advance_of_accepts ha] at h
    obtain ⟨hfit, hclear⟩ := accepts_iff.mp ha
    have hle := (isSome_slice?_iff.mp hfit).2.2
    refine ⟨List.forall_mem_cons.mpr ⟨hfit, h.fit⟩, List.forall_mem_cons.mpr ⟨hclear, ?_⟩,
      List.pairwise_cons.mpr ⟨fun e' he' => h.clear e' he' _ rfl, h.ordered⟩⟩
    intro e' he' s hs
    exact Nat.le_trans (h.clear e' he' _ rfl) (Nat.le_trans hle (hclear s hs))

theorem Progress.admits_append :
    p.Admits (es ++ es') ↔ p.Admits es ∧ (es.foldl Progress.advance p).Admits es' := by
  induction es generalizing p with
  | nil =>
    refine ⟨fun h => ⟨⟨?_, ?_, List.Pairwise.nil⟩, h⟩, fun h => h.2⟩ <;> simp
  | cons e es ih => rw [List.cons_append, admits_cons, admits_cons, ih, List.foldl_cons, and_assoc]

theorem foldlM_step_eq_ok_iff :
    es.foldlM Progress.step p = .ok q ↔ p.Admits es ∧ es.foldl Progress.advance p = q := by
  induction es generalizing p with
  | nil =>
    refine ⟨fun h => ⟨⟨?_, ?_, List.Pairwise.nil⟩, Except.ok.inj h⟩, fun h => congrArg _ h.2⟩ <;>
      simp
  | cons e es ih =>
    rw [List.foldlM_cons, Progress.admits_cons, List.foldl_cons, Progress.step_eq]
    split_ifs with hb
    · cases ho : p.obstacle? e with
      | some previous =>
        refine ⟨fun h => (by cases h), fun h => ?_⟩
        rw [Progress.obstacle?_eq_none_iff.mpr (Progress.accepts_iff.mp h.1.1).2] at ho
        cases ho
      | none =>
        have ha := Progress.accepts_iff.mpr ⟨hb, Progress.obstacle?_eq_none_iff.mp ho⟩
        rw [and_iff_right ha]
        exact ih
    · refine ⟨fun h => (by cases h), fun h => absurd (Progress.accepts_iff.mp h.1.1).1 hb⟩

/-- **What an unobstructed pass writes**: the text from any offset up to the cut is read with the
edits in reverse. -/
theorem Progress.Admits.substitutes {base front rest : List Char} (hbase : base = front ++ rest)
    (h : (start base).Admits es)
    (hle : byteLength front ≤ (es.foldl Progress.advance (start base)).cut) :
    Substitutes (byteLength front) rest es.reverse
      ((es.foldl Progress.advance (start base)).rest (byteLength front)) := by
  induction es using List.reverseRecOn generalizing front rest with
  | nil =>
    have hslice : slice? base ⟨byteLength front, byteLength base⟩ = some rest :=
      slice?_eq_some_iff.mpr ⟨front, [], by simp [hbase], rfl, by simp [hbase]⟩
    rw [List.foldl_nil, Progress.rest, start, hslice, Option.getD_some, List.append_nil]
    exact .nil _ _
  | append_singleton es e ih =>
    obtain ⟨hes, he⟩ := admits_append.mp h
    obtain ⟨ha, -⟩ := admits_cons.mp he
    rw [List.foldl_append, List.foldl_cons, List.foldl_nil, advance_of_accepts ha] at hle ⊢
    set before := es.foldl Progress.advance (start base) with hbefore
    have hsame : before.base = base :=
      List.foldlRecOn (motive := fun q : Progress => q.base = base) es _ rfl
        fun q hq e _ => (q.base_advance e).trans hq
    have hintact : before.IsIntact :=
      List.foldlRecOn (motive := Progress.IsIntact) es _ (isIntact_start base)
        fun q hq e _ => hq.advance e
    obtain ⟨old, hold⟩ := Option.isSome_iff_exists.mp (accepts_iff.mp ha).1
    obtain ⟨upTo, behind, hsplit, hstart, hstop⟩ := slice?_eq_some_iff.mp hold
    rw [hsame] at hsplit
    -- The offset lies before the edit, so that the text between the two is kept.
    have hfront : byteLength front ≤ byteLength upTo := hstart ▸ hle
    obtain ⟨kept, rfl, hrest⟩ := exists_append_of_byteLength_le
      (by rw [← hbase, hsplit, List.append_assoc] : front ++ rest = upTo ++ (old ++ behind)) hfront
    have hnext := ih hsplit hes (by
      rw [byteLength_append, ← hstop]
      exact hintact.stop_le ha)
    rw [byteLength_append, ← hstop] at hnext
    have hslice : slice? base ⟨byteLength front, e.span.start⟩ = some kept :=
      slice?_eq_some_iff.mpr ⟨front, old ++ behind, by simp [hsplit], rfl, by
        rw [hstart, byteLength_append]⟩
    rw [Progress.rest, hsame, hslice, Option.getD_some, List.reverse_append, hrest,
      ← List.append_assoc, ← List.append_assoc]
    exact .cons kept old (by rw [hstart, byteLength_append]) (by rw [hstop, hstart]) hnext

/-! ## Outcomes -/

/-- Edits of the same spans come to the same outcome, but for the text. -/
theorem outcome_congr (hbase : p.base = q.base) (hlast : p.last = q.last)
    (hs : es.map span = es'.map span) : (es.foldlM Progress.step p).map (fun _ => ()) =
      (es'.foldlM Progress.step q).map fun _ => () := by
  induction es generalizing es' p q with
  | nil =>
    rw [List.map_eq_nil_iff.mp hs.symm]
    rfl
  | cons e es ih =>
    cases es' with
    | nil => cases hs
    | cons e' es' =>
      rw [List.map_cons, List.map_cons, List.cons.injEq] at hs
      have ho : p.obstacle? e = q.obstacle? e' := by
        rw [Progress.obstacle?, Progress.obstacle?, hlast, hs.1]
      rw [List.foldlM_cons, List.foldlM_cons, Progress.step_eq, Progress.step_eq, hbase, hs.1, ho]
      split_ifs with hb
      · cases hob : q.obstacle? e' with
        | some previous => rfl
        | none =>
          have hclear := Progress.obstacle?_eq_none_iff.mp hob
          have hq := Progress.accepts_iff.mpr ⟨hb, hclear⟩
          have hp : p.accepts e.span = true :=
            Progress.accepts_iff.mpr ⟨hbase ▸ hs.1 ▸ hb, hlast ▸ hs.1 ▸ hclear⟩
          refine ih (by rw [p.base_advance, q.base_advance, hbase]) ?_ hs.2
          rw [Progress.advance_of_accepts hp, Progress.advance_of_accepts hq, hs.1]
      · rfl

theorem map_span_sort (hp : edits'.Perm edits) :
    (sort edits').map span = (sort edits).map span := by
  have hsorted : ∀ es : List Edit,
      ((sort es).map span).Pairwise fun s t => s.appliedFirst t = true := fun es =>
    List.pairwise_map.mpr (pairwise_sort es)
  refine List.Perm.eq_of_pairwise (fun s t _ _ => Span.appliedFirst_antisymm) (hsorted edits')
    (hsorted edits) (List.Perm.map span ?_)
  exact (List.mergeSort_perm _ _).trans (hp.trans (List.mergeSort_perm _ _).symm)

theorem applyAll_eq_ok_iff {result : String} : applyAll text edits = .ok result ↔
    (Progress.start text.toList).Admits (sort edits) ∧
      String.ofList ((sort edits).foldl Progress.advance (Progress.start text.toList)).text =
        result := by
  rw [applyAll]
  constructor
  · intro h
    cases hfold : (sort edits).foldlM Progress.step (Progress.start text.toList) with
    | error err =>
      rw [hfold] at h
      cases h
    | ok p =>
      obtain ⟨hadmits, rfl⟩ := foldlM_step_eq_ok_iff.mp hfold
      rw [hfold] at h
      exact ⟨hadmits, Except.ok.inj h⟩
  · rintro ⟨hadmits, rfl⟩
    rw [foldlM_step_eq_ok_iff.mpr ⟨hadmits, rfl⟩]
    rfl

theorem admits_sort_iff : (Progress.start text.toList).Admits (sort edits) ↔
    (∀ e ∈ edits, e.span.Fits text) ∧ edits.Pairwise fun a b => a.span.Apart b.span := by
  have hperm : (sort edits).Perm edits := List.mergeSort_perm _ _
  have hapart : edits.Pairwise (fun a b => a.span.Apart b.span) ↔
      (sort edits).Pairwise fun a b => a.span.Apart b.span :=
    hperm.symm.pairwise_iff fun h => h.symm
  rw [hapart]
  constructor
  · rintro ⟨hfit, -, ho⟩
    exact ⟨fun e he => inBounds_iff.mp (hfit e (mem_sort.mpr he)), ho.imp .inr⟩
  · rintro ⟨hfit, ha⟩
    refine ⟨fun e he => inBounds_iff.mpr (hfit e (mem_sort.mp he)),
      fun e _ s hs => (by cases hs), ?_⟩
    refine (ha.and (pairwise_sort edits)).imp_of_mem fun _ hb h => ?_
    exact h.1.stop_le h.2 (hfit _ (mem_sort.mp hb)).le

/-- **Edits can be applied together** exactly if each of them fits and they are apart. -/
theorem isOk_applyAll_iff : (∃ result, applyAll text edits = .ok result) ↔
    (∀ e ∈ edits, e.span.Fits text) ∧ edits.Pairwise fun a b => a.span.Apart b.span := by
  simp only [applyAll_eq_ok_iff, exists_and_left, exists_eq', and_true]
  exact admits_sort_iff

theorem arranges_reverse_sort (h : (Progress.start text.toList).Admits (sort edits)) :
    Arranges edits (sort edits).reverse := by
  refine ⟨(List.reverse_perm _).trans (List.mergeSort_perm _ _),
    List.pairwise_reverse.mpr h.ordered, fun n => ?_⟩
  -- Insertions at one offset are equal to the order of application, which keeps them in place.
  have hsame : (edits.filter (·.span = ⟨n, n⟩)).Pairwise
      fun a b => a.span.appliedFirst b.span = true := by
    refine List.pairwise_of_forall_mem_list fun a ha b hb => ?_
    have ha : a.span = ⟨n, n⟩ := by simpa using (List.mem_filter.mp ha).2
    have hb : b.span = ⟨n, n⟩ := by simpa using (List.mem_filter.mp hb).2
    rw [ha, hb]
    exact Span.appliedFirst_iff.mpr (.inr ⟨rfl, Nat.le_refl n⟩)
  rw [List.filter_reverse, filter_sort, sort, List.mergeSort_of_pairwise hsame]

theorem exists_substitutes {result : String} (h : applyAll text edits = .ok result) :
    ∃ es, Arranges edits es ∧ Substitutes 0 text.toList es result.toList := by
  obtain ⟨hadmits, rfl⟩ := applyAll_eq_ok_iff.mp h
  refine ⟨_, arranges_reverse_sort hadmits, ?_⟩
  have hsub := hadmits.substitutes (List.nil_append text.toList).symm (Nat.zero_le _)
  rw [String.toList_ofList, Progress.text_eq]
  exact hsub

theorem outcome_applyAll_perm (text : String) (hp : edits'.Perm edits) :
    (applyAll text edits').map (fun _ => ()) = (applyAll text edits).map fun _ => () := by
  have hmap : ∀ r : Except EditError Progress,
      (r.map fun p => String.ofList p.text).map (fun _ => ()) = r.map fun _ => () := by
    rintro (err | p) <;> rfl
  rw [applyAll, applyAll, hmap, hmap]
  exact outcome_congr rfl rfl (map_span_sort hp)

/-- **Applying edits is substitution.** It never breaks off; it succeeds exactly if every edit fits
the text and any two of them are apart; then the text is read from left to right, with the edits
arranged in that order; and neither a failure nor the text depends on the order in which the edits
are given, but for insertions at one offset. -/
theorem substitutes_applyAll (text : String) (edits : List Edit) :
    spliceAll? text edits = some (applyAll text edits) ∧
      ((∃ result, applyAll text edits = .ok result) ↔
        (∀ e ∈ edits, e.span.Fits text) ∧ edits.Pairwise fun a b => a.span.Apart b.span) ∧
      (∀ result, applyAll text edits = .ok result →
        ∃ es, Arranges edits es ∧ Substitutes 0 text.toList es result.toList) ∧
      ∀ edits' : List Edit, edits'.Perm edits →
        (∀ err, applyAll text edits' = .error err ↔ applyAll text edits = .error err) ∧
          ((∀ n, edits'.filter (·.span = ⟨n, n⟩) = edits.filter (·.span = ⟨n, n⟩)) →
            applyAll text edits' = applyAll text edits) := by
  refine ⟨spliceAll?_eq text edits, isOk_applyAll_iff, fun result h => exists_substitutes h,
    fun edits' hp => ?_⟩
  have hout := outcome_applyAll_perm text hp
  cases h : applyAll text edits with
  | error err =>
    cases h' : applyAll text edits' with
    | error err' =>
      rw [h, h'] at hout
      obtain rfl := Except.error.inj hout
      exact ⟨fun _ => Iff.rfl, fun _ => rfl⟩
    | ok result' =>
      rw [h, h'] at hout
      cases hout
  | ok result =>
    cases h' : applyAll text edits' with
    | error err' =>
      rw [h, h'] at hout
      cases hout
    | ok result' =>
      refine ⟨fun err => ⟨fun hc => (by cases hc), fun hc => (by cases hc)⟩, fun hi => ?_⟩
      obtain ⟨es, hes, hsub⟩ := exists_substitutes h
      obtain ⟨es', hes', hsub'⟩ := exists_substitutes h'
      have hfit := (isOk_applyAll_iff.mp ⟨result, h⟩).1
      obtain rfl := hes.unique hes' hp (fun e he => (hfit e he).le) hi
      rw [String.toList_inj.mp (hsub'.unique hsub)]

/-- Insertions at one offset appear in reverse order, before what is replaced there. -/
example : applyAll "abc" [⟨⟨1, 1⟩, "x"⟩, ⟨⟨1, 2⟩, "z"⟩, ⟨⟨1, 1⟩, "y"⟩] = .ok "ayxzc" := by cbv

end Edit

end Bindery
