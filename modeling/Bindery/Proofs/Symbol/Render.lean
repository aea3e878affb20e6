import Bindery.Proofs.Table
import Bindery.Proofs.Text.Edit
import Bindery.Symbol.Render

/-!
# Rendering piece by piece

* `Symbol.source?`: the source text of a range.
* `Span.Misses`, `Span.IsApart`: spans on either side of an offset, or of another span.
* **`Symbol.render_append`**: a range is rendered piece by piece where no replaced place lies across
  the border.
* `Symbol.IsAlone`, `Symbol.WritesAt`: a place apart from all others, and what is written there.
* **`Symbol.writesAt`**: every place of a name is replaced by what the table says, or by nothing.
-/

namespace Bindery

open Text

namespace Span

/-- A span lies before an offset or behind it. -/
def Misses (s : Span) (n : Nat) : Prop := s.start < n ∧ s.stop ≤ n ∨ n ≤ s.start ∧ n < s.stop

/-- A span lies before another or behind it. -/
def IsApart (s t : Span) : Prop :=
  s.start < t.start ∧ s.stop ≤ t.start ∨ t.stop ≤ s.start ∧ t.stop < s.stop

theorem IsApart.misses {s t : Span} (h : s.IsApart t) (_ : t.start ≤ t.stop) :
    s.Misses t.start ∧ s.Misses t.stop := by
  unfold IsApart at h
  unfold Misses
  omega

end Span

namespace Symbol

variable {x : Symbol} {s p e : Nat} {range : Span} {withModifiers : Bool}

/-- The source text of a range of the declaration. -/
def source? (x : Symbol) (range : Span) : Option String :=
  (range.relativeTo? x.span.start).bind (sliceString? x.content)

theorem render_of_source? {text : String} (h : x.source? range = some text) :
    x.render range withModifiers =
      (Edit.applyPossible text (x.editsIn range withModifiers)).1 := by
  rw [source?] at h
  rw [render, h]

theorem source?_eq_some_iff {text : String} : x.source? range = some text ↔
    ∃ as bs, x.content.toList = as ++ text.toList ++ bs ∧
      range.start = x.span.start + byteLength as ∧
        range.stop = range.start + byteLength text.toList := by
  rw [source?, Span.relativeTo?]
  constructor
  · intro h
    split_ifs at h with hle
    · rw [Option.bind_some, sliceString?_eq, Option.map_eq_some_iff] at h
      obtain ⟨cs, hcs, rfl⟩ := h
      obtain ⟨as, bs, hc, hs, he⟩ := slice?_eq_some_iff.mp hcs
      refine ⟨as, bs, by rw [hc, String.toList_ofList], ?_, ?_⟩
      · simp only at hs
        omega
      · rw [String.toList_ofList]
        simp only at hs he
        omega
    · cases h
  · rintro ⟨as, bs, hc, hs, he⟩
    rw [if_pos (by omega), Option.bind_some, sliceString?_eq, Option.map_eq_some_iff]
    refine ⟨text.toList, slice?_eq_some_iff.mpr ⟨as, bs, hc, ?_, ?_⟩, String.ofList_toList⟩
    · simp only
      omega
    · simp only
      omega

theorem source?_append {left right : String} (hl : x.source? ⟨s, p⟩ = some left)
    (hr : x.source? ⟨p, e⟩ = some right) : x.source? ⟨s, e⟩ = some (left ++ right) := by
  obtain ⟨as, bs, hc, hs, hp⟩ := source?_eq_some_iff.mp hl
  obtain ⟨as', bs', hc', hp', he⟩ := source?_eq_some_iff.mp hr
  simp only at hs hp hp' he
  have hle : byteLength (as ++ left.toList) ≤ byteLength as' := by
    rw [byteLength_append]
    omega
  rw [List.append_assoc as', hc] at hc'
  obtain ⟨ms, rfl, hb⟩ := exists_append_of_byteLength_le hc' hle
  have hm : ms = [] := eq_nil_of_byteLength_eq_zero (by
    rw [byteLength_append, byteLength_append] at hp'
    omega)
  subst hm
  refine source?_eq_some_iff.mpr ⟨as, bs', ?_, hs, ?_⟩
  · rw [hc, hb, String.toList_append]
    simp
  · simp only [String.toList_append, byteLength_append]
    omega

/-! ## The edits of two pieces -/

theorem editsIn_left (hsp : s ≤ p) (hpe : p ≤ e) :
    (x.editsIn ⟨s, e⟩ withModifiers).filter (·.span.stop ≤ p - s) =
      x.editsIn ⟨s, p⟩ withModifiers := by
  unfold editsIn
  rw [List.filter_filterMap]
  refine List.filterMap_congr fun r _ => ?_
  simp only [Span.Contains, Span.relativeTo?]
  split_ifs <;> simp <;> omega

theorem editsIn_right (hsp : s ≤ p) (h : ∀ r ∈ x.replacements withModifiers,
    Span.Contains ⟨s, e⟩ r.span → r.span.Misses p) :
    ((x.editsIn ⟨s, e⟩ withModifiers).filter (p - s < ·.span.stop)).map (Edit.unshift (p - s)) =
      x.editsIn ⟨p, e⟩ withModifiers := by
  unfold editsIn
  rw [List.filter_filterMap, List.map_filterMap]
  refine List.filterMap_congr fun r hr => ?_
  have hm := h r hr
  simp only [Span.Contains, Span.Misses, Span.relativeTo?] at hm ⊢
  split_ifs <;> simp [Edit.unshift] <;> omega

/-- **A range is rendered piece by piece** where no replaced place lies across the border. -/
theorem render_append {left right : String} (hl : x.source? ⟨s, p⟩ = some left)
    (hr : x.source? ⟨p, e⟩ = some right)
    (h : ∀ r ∈ x.replacements withModifiers, Span.Contains ⟨s, e⟩ r.span → r.span.Misses p) :
    x.render ⟨s, e⟩ withModifiers =
      x.render ⟨s, p⟩ withModifiers ++ x.render ⟨p, e⟩ withModifiers := by
  have hboth := source?_append hl hr
  obtain ⟨_, _, -, -, hp⟩ := source?_eq_some_iff.mp hl
  obtain ⟨_, _, -, -, he⟩ := source?_eq_some_iff.mp hr
  simp only at hp he
  have hlen : byteLength left.toList = p - s := by omega
  have hclears : ∀ d ∈ x.editsIn ⟨s, e⟩ withModifiers, d.Clears (byteLength left.toList) := by
    intro d hd
    obtain ⟨r, hr, hd⟩ := List.mem_filterMap.mp hd
    have hm := h r hr
    rw [hlen]
    simp only [Span.Contains, Span.Misses, Span.relativeTo?, Edit.Clears] at hm hd ⊢
    split_ifs at hd with hc hs
    · cases hd
      simp only
      have := hm hc
      omega
    · cases hd
  have happend := @Edit.applyPossible_append _ right.toList _ hclears
  rw [String.ofList_append, String.ofList_toList, String.ofList_toList, hlen,
    editsIn_left (by omega) (by omega), editsIn_right (by omega) h] at happend
  rw [render_of_source? hboth, render_of_source? hl, render_of_source? hr, happend]

/-! ## One place -/

theorem render_of_forall {text : String} (h : x.source? range = some text)
    (hno : ∀ r ∈ x.replacements withModifiers, ¬range.Contains r.span) :
    x.render range withModifiers = text := by
  have hnil : x.editsIn range withModifiers = [] :=
    List.filterMap_eq_nil_iff.mpr fun r hr => if_neg (hno r hr)
  rw [render_of_source? h, hnil, Edit.applyPossible_nil]

theorem render_of_replaced {text new : String} (h : x.source? range = some text)
    (hne : range.start < range.stop) (hmem : ⟨range, new⟩ ∈ x.replacements withModifiers)
    (hall : ∀ r ∈ x.replacements withModifiers, range.Contains r.span → r = ⟨range, new⟩) :
    x.render range withModifiers = new := by
  obtain ⟨_, _, -, hs, he⟩ := source?_eq_some_iff.mp h
  have hedit : ∀ d ∈ x.editsIn range withModifiers, d = ⟨⟨0, byteLength text.toList⟩, new⟩ := by
    intro d hd
    obtain ⟨r, hr, hd⟩ := List.mem_filterMap.mp hd
    split_ifs at hd with hc
    obtain rfl := hall r hr hc
    obtain ⟨t, ht, rfl⟩ := Option.map_eq_some_iff.mp hd
    simp only [Span.relativeTo?] at ht
    split_ifs at ht
    cases ht
    simp only [Edit.mk.injEq, Span.mk.injEq, and_true]
    omega
  have hsome : x.editsIn range withModifiers ≠ [] := by
    have hd : (⟨⟨0, range.stop - range.start⟩, new⟩ : Edit) ∈ x.editsIn range withModifiers := by
      refine List.mem_filterMap.mpr ⟨_, hmem, ?_⟩
      rw [if_pos ⟨Nat.le_refl _, Nat.le_refl _⟩]
      simp [Span.relativeTo?, Nat.le_of_lt hne]
    exact List.ne_nil_of_mem hd
  rw [render_of_source? h, Edit.applyPossible_whole hsome (by omega) hedit]

/-- A range that is either replaced as a whole or not at all. -/
theorem render_whole {text : String} {replacement : Option String}
    (h : x.source? range = some text) (hne : range.start < range.stop)
    (hmem : ∀ new, replacement = some new → ⟨range, new⟩ ∈ x.replacements withModifiers)
    (hall : ∀ r ∈ x.replacements withModifiers, range.Contains r.span →
      r.span = range ∧ replacement = some r.replacement) :
    x.render range withModifiers = replacement.getD text := by
  cases replacement with
  | none => exact render_of_forall h fun r hr hc => nomatch (hall r hr hc).2
  | some new =>
    refine render_of_replaced h hne (hmem new rfl) fun r hr hc => ?_
    obtain ⟨hspan, hnew⟩ := hall r hr hc
    obtain ⟨span, text⟩ := r
    cases hspan
    cases hnew
    rfl

/-- One place inside a range, apart from all others that are replaced: what is written there is its
replacement, or the text that stands there if it has none. -/
theorem render_occurrence {l : Span} {before word after : String} {replacement : Option String}
    (hb : x.source? ⟨s, l.start⟩ = some before) (hw : x.source? l = some word)
    (ha : x.source? ⟨l.stop, e⟩ = some after) (hne : l.start < l.stop)
    (hmem : ∀ new, replacement = some new → ⟨l, new⟩ ∈ x.replacements withModifiers)
    (hothers : ∀ r ∈ x.replacements withModifiers, Span.Contains ⟨s, e⟩ r.span →
      r.span = l ∧ replacement = some r.replacement ∨ r.span.IsApart l) :
    x.render ⟨s, e⟩ withModifiers = x.render ⟨s, l.start⟩ withModifiers ++
      replacement.getD word ++ x.render ⟨l.stop, e⟩ withModifiers := by
  obtain ⟨_, _, -, -, hs⟩ := source?_eq_some_iff.mp hb
  obtain ⟨_, _, -, -, he⟩ := source?_eq_some_iff.mp ha
  have hsl : s ≤ l.start := Nat.le.intro hs.symm
  have hle : l.stop ≤ e := Nat.le.intro he.symm
  have hinner : ∀ r ∈ x.replacements withModifiers, l.Contains r.span →
      r.span = l ∧ replacement = some r.replacement := by
    intro r hr hc
    unfold Span.Contains at hc
    refine (hothers r hr ⟨Nat.le_trans hsl hc.1, Nat.le_trans hc.2 hle⟩).resolve_right fun hapart => ?_
    unfold Span.IsApart at hapart
    omega
  -- No replaced place lies across either end of `l`.
  have hmiss : ∀ r ∈ x.replacements withModifiers, Span.Contains ⟨s, e⟩ r.span →
      r.span.Misses l.start ∧ r.span.Misses l.stop := by
    intro r hr hc
    rcases hothers r hr hc with ⟨hl, -⟩ | hapart
    · rw [hl]
      unfold Span.Misses
      omega
    · exact hapart.misses (Nat.le_of_lt hne)
  have hfirst := source?_append hb hw
  rw [render_append hfirst ha fun r hr hc => (hmiss r hr hc).2,
    render_append hb hw fun r hr hc => (hmiss r hr ⟨hc.1, Nat.le_trans hc.2 hle⟩).1,
    render_whole hw hne hmem hinner]

/-! ## Places of names -/

theorem mem_replacements_false {r : ModifierChange} : r ∈ x.replacements false ↔
    ∃ n m, x.table.get? n = some m ∧ r.span ∈ m.locations ∧ m.replacement = some r.replacement := by
  show r ∈ List.flatMap _ _ ↔ _
  rw [List.mem_flatMap]
  constructor
  · rintro ⟨m, hm, hr⟩
    obtain ⟨⟨n, m⟩, he, rfl⟩ := List.mem_map.mp hm
    refine ⟨n, m, Table.mem_entries.mp he, ?_⟩
    cases hrep : m.replacement with
    | none => simp [hrep] at hr
    | some text =>
      simp only [hrep] at hr
      obtain ⟨l, hl, rfl⟩ := List.mem_map.mp hr
      exact ⟨hl, rfl⟩
  · rintro ⟨n, m, hm, hl, hrep⟩
    refine ⟨m, List.mem_map_of_mem (Table.mem_entries.mpr hm), ?_⟩
    simp only [hrep]
    exact List.mem_map.mpr ⟨r.span, hl, rfl⟩

theorem mem_replacements {r : ModifierChange} : r ∈ x.replacements withModifiers ↔
    (∃ n m, x.table.get? n = some m ∧ r.span ∈ m.locations ∧
      m.replacement = some r.replacement) ∨
    withModifiers = true ∧ ∃ c, x.classInfo = some c ∧ r ∈ c.modifierChanges.values := by
  rw [← mem_replacements_false]
  cases withModifiers with
  | false => simp
  | true =>
    show r ∈ x.replacements false ++ _ ↔ _
    rw [List.mem_append]
    cases x.classInfo <;> simp

/-- **The place `l` of a name is apart** from the other places of the symbol. -/
structure IsAlone (x : Symbol) (name : String) (l : Span) : Prop where
  names : ∀ n m, x.table.get? n = some m → ∀ l' ∈ m.locations, n = name ∧ l' = l ∨ l'.IsApart l
  modifiers : ∀ c, x.classInfo = some c → ∀ r ∈ c.modifierChanges.values, r.span.IsApart l

/-- **What is written at the place `l` of a name**, in the text of any range that holds it, such as
`compiled`, `constructorText` or `memberText?`: the replacement, or what stands there if there is
none. -/
def WritesAt (x : Symbol) (name : String) (l : Span) (replacement : Option String) : Prop :=
  ∀ ⦃s e : Nat⦄ ⦃withModifiers : Bool⦄ ⦃before word after : String⦄, x.IsAlone name l →
    x.source? ⟨s, l.start⟩ = some before → x.source? l = some word →
    x.source? ⟨l.stop, e⟩ = some after →
      x.render ⟨s, e⟩ withModifiers = x.render ⟨s, l.start⟩ withModifiers ++
        replacement.getD word ++ x.render ⟨l.stop, e⟩ withModifiers

/-- **Every place of a name** is replaced as the table says. -/
theorem writesAt {name : String} {l : Span} {replacement : Option String} (hne : l.start < l.stop)
    (hall : ∀ m, x.table.get? name = some m → m.replacement = replacement)
    (hmem : ∀ new, replacement = some new → ∃ m, x.table.get? name = some m ∧ l ∈ m.locations) :
    x.WritesAt name l replacement := by
  intro s e withModifiers before word after halone hb hw ha
  refine render_occurrence hb hw ha hne (fun new hnew => ?_) fun r hr _ => ?_
  · obtain ⟨m, hm, hl⟩ := hmem new hnew
    exact mem_replacements.mpr (.inl ⟨name, m, hm, hl, (hall m hm).trans hnew⟩)
  · rcases mem_replacements.mp hr with ⟨n, m, hm, hl, hnew⟩ | ⟨-, c, hc, hr⟩
    · rcases halone.names n m hm _ hl with ⟨rfl, hspan⟩ | hapart
      · exact .inl ⟨hspan, (hall m hm).symm.trans hnew⟩
      · exact .inr hapart
    · exact .inr (halone.modifiers c hc r hr)

end Symbol

end Bindery
