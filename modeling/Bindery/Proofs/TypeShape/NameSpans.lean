import Bindery.Proofs.TypeShape.References

/-!
# The spans of names in type expressions

The span to rewrite of a reference goes from where its word starts to where its name stops. An
array widens the word to the whole of the array, so the span is that of the name exactly if the
array starts there too.

* `Text.sliceString?_eq_iff`: what stops at one place and reads the same starts at one place.
* `Tree.StartsWithNames`: trees where every reference starts with its name.
* `Tree.IsExact`: an array around a reference starts where the name does.
* **`Tree.nameSpan_iff`**: the spans of all references read as their names exactly under this
  condition.
-/

namespace Bindery

open TypeShape (references maxDepth)

theorem Text.sliceString?_eq_iff {text value : String} {s : Span} {start : Nat}
    (h : sliceString? text s = some value) :
    sliceString? text ⟨start, s.stop⟩ = some value ↔ start = s.start := by
  refine ⟨fun h' => ?_, fun hs => hs ▸ h⟩
  rw [sliceString?_eq, Option.map_eq_some_iff] at h h'
  obtain ⟨cs, hcs, rfl⟩ := h
  obtain ⟨cs', hcs', he⟩ := h'
  obtain rfl : cs' = cs := String.ofList_injective he
  obtain ⟨as, rest, -, hstart, hstop⟩ := slice?_eq_some_iff.mp hcs
  obtain ⟨as', rest', -, hstart', hstop'⟩ := slice?_eq_some_iff.mp hcs'
  dsimp only at hstart' hstop'
  omega

/-- The name with which a type starts: any but that after `typeof`. -/
def Form.leadingName? : Form → Option Slot
  | .typeReference name _ | .instantiation name _ => some name
  | _ => none

theorem Form.reference?_cases {form : Form} {name : Slot} (h : form.reference? = some name) :
    form.leadingName? = some name ∨ form = .typeQuery name := by
  cases form with
  | typeReference _ _ | instantiation _ _ => exact .inl h
  | typeQuery _ =>
    cases h
    exact .inr rfl
  | _ => cases h

theorem Node.wordSpan_of_leadingName? {n : Node} {name : Slot}
    (h : n.form.leadingName? = some name) (w : Span) : n.wordSpan w = n.span := by
  rw [wordSpan]
  split
  · rename_i hf
    rw [hf] at h
    cases h
  · rfl

namespace Tree

/-- **Every reference starts with its name**, which can be cut out of the text. -/
def StartsWithNames (t : Tree) : Prop :=
  ∀ n ∈ t.nodes.toList, ∀ name ∈ n.form.leadingName?, ∃ w ∈ t.span? name,
    (Text.sliceString? t.source w).isSome = true ∧ n.span.start = w.start

instance (t : Tree) : Decidable t.StartsWithNames :=
  inferInstanceAs (Decidable (∀ n ∈ t.nodes.toList, ∀ name ∈ n.form.leadingName?,
    ∃ w ∈ t.span? name, (Text.sliceString? t.source w).isSome = true ∧ n.span.start = w.start))

/-- **A name stands at the start of what is around it.** Where the span of a name does not fit the
text, its word has an empty value, and nothing may be left of the span. -/
def IsExact (t : Tree) (around : Option Span) (w : Span) : Prop :=
  if (Text.sliceString? t.source w).isSome then ∀ outer ∈ around, outer.start = w.start
  else Text.sliceString? t.source ⟨(around.map Span.start).getD w.start, w.stop⟩ = some ""

instance (t : Tree) (around : Option Span) (w : Span) : Decidable (t.IsExact around w) :=
  inferInstanceAs (Decidable (if (Text.sliceString? t.source w).isSome then
      ∀ outer ∈ around, outer.start = w.start
    else Text.sliceString? t.source ⟨(around.map Span.start).getD w.start, w.stop⟩ = some ""))

variable {t : Tree} {s : Site}

theorem isExact_iff (around : Option Span) (w : Span) : t.IsExact around w ↔
    Text.sliceString? t.source ⟨(around.map Span.start).getD w.start, w.stop⟩ =
      some ((Text.sliceString? t.source w).getD "") := by
  unfold IsExact
  cases hw : Text.sliceString? t.source w with
  | none => rfl
  | some value =>
    rw [Option.isSome_some, if_pos rfl, Option.getD_some, Text.sliceString?_eq_iff hw]
    cases around <;> simp

theorem StartsWithNames.of_node? (ht : t.StartsWithNames) {n : Node} (hn : t.node? s.slot = some n)
    {name : Slot} (hname : n.form.leadingName? = some name) : ∃ w, t.span? name = some w ∧
      (Text.sliceString? t.source w).isSome = true ∧ n.span.start = w.start := by
  obtain ⟨i, -, hi⟩ := Option.bind_eq_some_iff.mp hn
  exact ht n (Array.mem_toList_iff.mpr (Array.mem_of_getElem? hi)) name hname

theorem nameSpan_of_word? (ht : t.StartsWithNames) {word : TypeWord} {name : Slot} {w : Span}
    (hr : t.reference? s = some name) (hw : t.span? name = some w) (hword : t.word? s = some word) :
    word.value = (Text.sliceString? t.source w).getD "" ∧
      word.nameSpan = ⟨(s.around.map Span.start).getD w.start, w.stop⟩ := by
  obtain ⟨n, name', w', hn, hr', hw', rfl⟩ := word?_eq_some_iff.mp hword
  cases hr.symm.trans hr'
  cases hw.symm.trans hw'
  refine ⟨by rw [text, hw, Option.bind_some], ?_⟩
  have hstart : (n.wordSpan w).start = w.start := by
    obtain ⟨n', hn', -, hname⟩ := reference?_eq_some_iff.mp hr
    cases hn.symm.trans hn'
    rcases Form.reference?_cases hname with hlead | hquery
    · obtain ⟨w', hw', -, hstart⟩ := ht.of_node? hn hlead
      cases hw.symm.trans hw'
      rw [Node.wordSpan_of_leadingName? hlead, hstart]
    · rw [Node.wordSpan, hquery]
  rw [TypeWord.nameSpan, ← hstart]
  cases s.around <;> rfl

theorem StartsWithNames.reads (ht : t.StartsWithNames) {i : Slot}
    (hl : ∀ s, t.Leads { slot := i } s → s.level ≤ maxDepth) : t.Reads { slot := i } := by
  refine ⟨rfl, hl, fun k _ name hname hne => ?_⟩
  obtain ⟨n, hn, hrole, hname⟩ := reference?_eq_some_iff.mp hname
  rcases Form.reference?_cases hname with hlead | hquery
  · obtain ⟨w, hw, -⟩ := ht.of_node? hn hlead
    exact Option.isSome_of_eq_some hw
  · -- Nothing lies below a name after `typeof`.
    obtain ⟨k', hk'⟩ := List.exists_mem_of_ne_nil _ hne
    obtain ⟨n', hn', -, hk'⟩ := mem_sitesIn.mp hk'
    cases hn.symm.trans hn'
    rw [hquery] at hk'
    cases hk'

/-- **Where the spans of all references read as their names**: exactly where no array around a
reference starts elsewhere than its name. -/
theorem nameSpan_iff (ht : t.StartsWithNames) {i : Slot}
    (hl : ∀ s, t.Leads { slot := i } s → s.level ≤ maxDepth) {shape : TypeShape}
    (hs : TypeShape.ofNode? t i = some shape) :
    (∀ w ∈ shape.references, Text.sliceString? t.source w.nameSpan = some w.value) ↔
      ∀ s, t.Leads { slot := i } s → s.isRead = true → ∀ name w, t.reference? s = some name →
        t.span? name = some w → t.IsExact s.around w := by
  simp only [mem_references_ofNode? (ht.reads hl) hs]
  constructor
  · intro h s hs hr name w hname hw
    obtain ⟨n, hn, -⟩ := reference?_eq_some_iff.mp hname
    have hword := word?_eq_some_iff.mpr ⟨n, name, w, hn, hname, hw, rfl⟩
    obtain ⟨hvalue, hspan⟩ := nameSpan_of_word? ht hname hw hword
    rw [isExact_iff, ← hspan, ← hvalue]
    exact h _ ⟨s, hs, hr, hword⟩
  · rintro h word ⟨s, hs, hr, hword⟩
    obtain ⟨_, name, w, -, hname, hw, -⟩ := word?_eq_some_iff.mp hword
    obtain ⟨hvalue, hspan⟩ := nameSpan_of_word? ht hname hw hword
    rw [hvalue, hspan, ← isExact_iff]
    exact h s hs hr name w hname hw

/-- A type in parentheses, in an array, beside a type in an array. -/
def arrays : Tree where
  file := "t.avt"
  source := "(Foo)[] | Bar[]"
  nodes := #[⟨.identifier "Foo", ⟨1, 4⟩, none⟩, ⟨.typeReference (some 0) [], ⟨1, 4⟩, none⟩,
    ⟨.parenthesizedType (some 1), ⟨0, 5⟩, none⟩, ⟨.arrayType (some 2), ⟨0, 7⟩, none⟩,
    ⟨.identifier "Bar", ⟨10, 13⟩, none⟩, ⟨.typeReference (some 4) [], ⟨10, 13⟩, none⟩,
    ⟨.arrayType (some 5), ⟨10, 15⟩, none⟩,
    ⟨.combination .union [some 3, some 6], ⟨0, 15⟩, none⟩]

/-- The array of a name starts with the name. -/
theorem nameSpan_arrays : arrays.StartsWithNames ∧
    (∀ s, arrays.Leads { slot := some 6 } s → s.level ≤ maxDepth) ∧
    ∃ shape, TypeShape.ofNode? arrays (some 6) = some shape ∧
      ∀ w ∈ shape.references, Text.sliceString? arrays.source w.nameSpan = some w.value := by
  have ht : arrays.StartsWithNames := by decide +kernel
  have hends : arrays.Ends 3 { slot := some 6 } := by decide +kernel
  have hlevel : ∀ s, arrays.Leads { slot := some 6 } s → s.level ≤ maxDepth := by
    have hall : ∀ s ∈ arrays.sites 3 { slot := some 6 }, s.level ≤ maxDepth := by decide +kernel
    exact fun s hs => hall s ((mem_sites hends).mpr hs)
  have hs : (TypeShape.ofNode? arrays (some 6)).isSome = true := by decide +kernel
  obtain ⟨shape, hs⟩ := Option.isSome_iff_exists.mp hs
  have hexact : ∀ s ∈ arrays.sites 3 { slot := some 6 }, ∀ name ∈ arrays.reference? s,
      ∀ w ∈ arrays.span? name, arrays.IsExact s.around w := by decide +kernel
  exact ⟨ht, hlevel, shape, hs, (nameSpan_iff ht hlevel hs).mpr fun s hl _ name w hname hw =>
    hexact s ((mem_sites hends).mpr hl) name hname w hw⟩

/-- The array of a name in parentheses starts before the name. -/
theorem not_nameSpan_arrays : arrays.StartsWithNames ∧
    (∀ s ∈ arrays.sites 4 { slot := some 3 }, s.level ≤ maxDepth) ∧
    (TypeShape.ofNode? arrays (some 3)).map (fun shape => shape.references.map fun w =>
      (w.value, Text.sliceString? arrays.source w.nameSpan)) = some [("Foo", some "(Foo")] := by
  decide +kernel

end Tree

end Bindery
