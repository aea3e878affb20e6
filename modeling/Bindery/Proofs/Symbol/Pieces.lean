import Bindery.Proofs.Binding.Bound
import Bindery.Proofs.Symbol.Late
import Bindery.Proofs.Symbol.Render
import Bindery.Proofs.Text.Substitution

/-!
# The text of a member within the text of its declaration

A declaration can be rendered as a whole and one range at a time. Where nothing that is replaced
lies across the borders of a range, both ways agree.

* `Span.Straddles`: a span on both sides of an offset.
* `Symbol.HasExtent`, `Context.hasExtent_of_mem_bind`: the places of names have bytes, as they are
  bound and when late imports are found.
* `Symbol.IsBorder`: an offset that no replaced place lies across.
* `Symbol.Composes`: what agrees.
* **`Symbol.composes_render`**: every symbol with the source text of its span.
-/

namespace Bindery

open Text

/-- A span starts before an offset and ends behind it. -/
def Span.Straddles (s : Span) (n : Nat) : Prop := s.start < n ∧ n < s.stop

instance (s : Span) (n : Nat) : Decidable (s.Straddles n) := inferInstanceAs (Decidable (_ ∧ _))

theorem Span.misses_of_not_straddles {s : Span} {n : Nat} (hs : ¬s.IsEmpty)
    (h : ¬s.Straddles n) : s.Misses n := by
  unfold IsEmpty at hs
  unfold Straddles at h
  unfold Misses
  omega

/-! ## Places with bytes -/

/-- Every place of a name has bytes. -/
def Symbol.HasExtent (x : Symbol) : Prop :=
  ∀ n m, x.table.get? n = some m → ∀ l ∈ m.locations, ¬l.IsEmpty

instance (x : Symbol) : Decidable x.HasExtent :=
  decidable_of_iff (∀ e ∈ x.table.entries, ∀ l ∈ e.2.locations.toList, ¬l.IsEmpty)
    ⟨fun h n m hm => h (n, m) (Table.mem_entries.mpr hm),
      fun h e he => h e.1 e.2 (Table.mem_entries.mp he)⟩

theorem Symbol.HasExtent.learnAll {x : Symbol} (h : x.HasExtent) (late : List LateImport) :
    (x.learnAll late).HasExtent := by
  intro n m hm
  rw [get?_table_learnAll, Option.map_eq_some_iff] at hm
  obtain ⟨m, hm, rfl⟩ := hm
  exact h n m hm

namespace Context

variable {cx : Context} {s : Symbol} {rs : List Reference} {b : Bound}

theorem not_isEmpty_of_mem_placesOf {n : String} {l : Span} (h : l ∈ cx.placesOf s rs n) :
    ¬l.IsEmpty := by
  obtain ⟨r, -, hr⟩ := List.mem_filterMap.mp h
  exact of_decide_eq_true (Option.filter_eq_some_iff.mp hr).2

theorem IsBoundAs.hasExtent (h : cx.IsBoundAs (s, rs) b) : b.symbol.HasExtent := by
  intro n m hm l hl
  rw [show b.symbol.table.get? n = _ from h.mentions n, mentions?, Option.ite_none_left_eq_some,
    Option.some.injEq] at hm
  rw [← hm.2] at hl
  exact not_isEmpty_of_mem_placesOf (Roster.mem_ofList.mp hl)

/-- **A statement is bound to symbols whose places have bytes.** -/
theorem hasExtent_of_mem_bind {statement : Slot} (h : b ∈ (cx.bind statement).1) :
    b.symbol.HasExtent := by
  obtain ⟨⟨s, rs⟩, -, hb⟩ := exists_of_mem_bind h
  exact hb.hasExtent

end Context

/-! ## Ranges of a declaration -/

namespace Symbol

variable {x : Symbol} {source : String}

theorem exists_source? (hx : sliceString? source x.span = some x.content) {r : Span}
    (hr : x.span.Contains r) (hfits : r.Fits source) : ∃ text, x.source? r = some text := by
  rw [sliceString?_eq, Option.map_eq_some_iff] at hx
  obtain ⟨cs, hcs, hcontent⟩ := hx
  obtain ⟨as, rest, hsource, hstart, hstop⟩ := slice?_eq_some_iff.mp hcs
  obtain ⟨hle, -, hvs, hve⟩ := hfits
  obtain ⟨as₁, bs₁, h₁, hn₁⟩ := isValid_iff.mp hvs
  obtain ⟨as₂, bs₂, h₂, hn₂⟩ := isValid_iff.mp hve
  unfold Span.Contains at hr
  -- The source is cut at the four offsets, in this order.
  rw [List.append_assoc] at hsource
  obtain ⟨before, rfl, hb⟩ :=
    exists_append_of_byteLength_le (hsource.symm.trans h₁) (by omega)
  obtain ⟨text, rfl, rfl⟩ := exists_append_of_byteLength_le (h₁.symm.trans h₂) (by omega)
  rw [byteLength_append, byteLength_append] at hn₂
  rw [byteLength_append] at hn₁
  obtain ⟨after, hafter, -⟩ := exists_append_of_byteLength_le
    (show (before ++ text) ++ bs₂ = cs ++ rest by rw [hb, List.append_assoc]) (by
      rw [byteLength_append]
      omega)
  refine ⟨String.ofList text, source?_eq_some_iff.mpr ⟨before, after, ?_, ?_, ?_⟩⟩
  · rw [← hcontent, String.toList_ofList, String.toList_ofList, hafter]
  · omega
  · rw [String.toList_ofList]
    omega

/-- **Nothing that is replaced lies across the offset `n`.** -/
def IsBorder (x : Symbol) (n : Nat) : Prop :=
  ∀ k m, x.table.get? k = some m → m.replacement.isSome = true →
    ∀ l ∈ m.locations, ¬l.Straddles n

instance (x : Symbol) (n : Nat) : Decidable (x.IsBorder n) :=
  decidable_of_iff (∀ e ∈ x.table.entries, e.2.replacement.isSome = true →
      ∀ l ∈ e.2.locations.toList, ¬l.Straddles n)
    ⟨fun h k m hm => h (k, m) (Table.mem_entries.mpr hm),
      fun h e he => h e.1 e.2 (Table.mem_entries.mp he)⟩

theorem IsBorder.misses {n : Nat} (h : x.IsBorder n) (hx : x.HasExtent) {r : ModifierChange}
    (hr : r ∈ x.replacements false) : r.span.Misses n := by
  obtain ⟨k, m, hm, hl, hnew⟩ := mem_replacements_false.mp hr
  exact Span.misses_of_not_straddles (hx k m hm _ hl) (h k m hm (by rw [hnew]; rfl) _ hl)

/-- **The text of a symbol and the texts of its parts agree.** -/
structure Composes (x : Symbol) (source : String) : Prop where
  /-- A range is rendered piece by piece. -/
  pieces : ∀ {s p e : Nat}, x.span.Contains ⟨s, e⟩ → Span.Fits ⟨s, p⟩ source →
    Span.Fits ⟨p, e⟩ source → x.IsBorder p →
      x.render ⟨s, e⟩ false = x.render ⟨s, p⟩ false ++ x.render ⟨p, e⟩ false
  /-- What is rendered of a range stands in the text of the declaration, behind what is rendered of
  the source before the range. -/
  part : ∀ {r : Span}, x.span.Contains r → r.Fits source → x.IsBorder r.start → x.IsBorder r.stop →
    x.compiled = x.render ⟨x.span.start, r.start⟩ false ++ x.render r false ++
      x.render ⟨r.stop, x.span.stop⟩ false
  /-- The text of a member without modifiers to replace. -/
  member : ∀ {c : ClassInfo} {name : String} {r : Span}, x.classInfo = some c →
    c.memberSpan? name = some r → (∀ d ∈ c.modifierChanges.values, ¬r.Contains d.span) →
      x.memberText? name = some (x.render r false)
  /-- The text of a constructor without modifiers to replace. -/
  constructorBody : ∀ {c : ClassInfo} {r : Span}, x.classInfo = some c →
    c.constructorBody = some r → (∀ d ∈ c.modifierChanges.values, ¬r.Contains d.span) →
      x.constructorText = x.render r false

theorem render_true_of_forall {r : Span} {c : ClassInfo} (hc : x.classInfo = some c)
    (h : ∀ d ∈ c.modifierChanges.values, ¬r.Contains d.span) :
    x.render r true = x.render r false := by
  have hnone : (c.modifierChanges.values).filterMap (fun d =>
      if r.Contains d.span then
        (d.span.relativeTo? r.start).map fun relative => (⟨relative, d.replacement⟩ : Edit)
      else none) = [] :=
    List.filterMap_eq_nil_iff.mpr fun d hd => if_neg (h d hd)
  have hedits : x.editsIn r true = x.editsIn r false := by
    have hreplace : x.replacements true = x.replacements false ++ c.modifierChanges.values := by
      simp [replacements, hc]
    rw [editsIn, hreplace, List.filterMap_append, hnone, List.append_nil, editsIn]
  rw [render, render, hedits]

/-- A range is rendered piece by piece. -/
theorem render_pieces (hx : sliceString? source x.span = some x.content) (hextent : x.HasExtent)
    {s p e : Nat} (hin : x.span.Contains ⟨s, e⟩) (hl : Span.Fits ⟨s, p⟩ source)
    (hr : Span.Fits ⟨p, e⟩ source) (hp : x.IsBorder p) :
    x.render ⟨s, e⟩ false = x.render ⟨s, p⟩ false ++ x.render ⟨p, e⟩ false := by
  have hpe : p ≤ e := hr.le
  have hsp : s ≤ p := hl.le
  obtain ⟨left, hleft⟩ := exists_source? hx (r := ⟨s, p⟩) ⟨hin.1, Nat.le_trans hpe hin.2⟩ hl
  obtain ⟨right, hright⟩ := exists_source? hx (r := ⟨p, e⟩) ⟨Nat.le_trans hin.1 hsp, hin.2⟩ hr
  exact render_append hleft hright fun r hr _ => hp.misses hextent hr

theorem fits_span (hx : sliceString? source x.span = some x.content) : x.span.Fits source :=
  Edit.inBounds_iff.mp (by
    rw [sliceString?_eq, Option.map_eq_some_iff] at hx
    obtain ⟨cs, hcs, -⟩ := hx
    rw [Edit.inBounds, hcs]
    rfl)

/-- **A declaration is rendered as its parts are.** The places of names have bytes in every symbol
that a statement is bound to, whatever imports are found later; and for every symbol whose places
have bytes and whose content is the source text of its span, what is rendered of a range is what
stands in its place in the text of the whole. -/
theorem composes_render :
    (∀ (cx : Context) (statement : Slot), ∀ b ∈ (cx.bind statement).1, ∀ late,
      (b.symbol.learnAll late).HasExtent) ∧
    ∀ (x : Symbol) (source : String), sliceString? source x.span = some x.content →
      x.HasExtent → x.Composes source := by
  refine ⟨fun cx statement b hb late => (Context.hasExtent_of_mem_bind hb).learnAll late,
    fun x source hx hextent => ?_⟩
  have hspan := fits_span hx
  refine ⟨render_pieces hx hextent, fun {r} hin hr hstart hstop => ?_,
    fun {c name r} hc hr hno => ?_, fun {c r} hc hr hno => ?_⟩
  · have hfirst : Span.Fits ⟨x.span.start, r.start⟩ source :=
      ⟨hin.1, Nat.le_trans hr.1 hr.2.1, hspan.2.2.1, hr.2.2.1⟩
    have hlast : Span.Fits ⟨r.stop, x.span.stop⟩ source :=
      ⟨hin.2, hspan.2.1, hr.2.2.2, hspan.2.2.2⟩
    have hfront : Span.Fits ⟨x.span.start, r.stop⟩ source :=
      ⟨Nat.le_trans hin.1 hr.1, hr.2.1, hspan.2.2.1, hr.2.2.2⟩
    have hinner : x.span.Contains ⟨x.span.start, r.stop⟩ := ⟨Nat.le_refl _, hin.2⟩
    have hwhole := render_pieces hx hextent ⟨Nat.le_refl _, Nat.le_refl _⟩ hfront hlast hstop
    rw [compiled, ← render_pieces hx hextent hinner hfirst hr hstart]
    exact hwhole
  · simp only [memberText?, hc, Option.bind_eq_bind, Option.bind_some, hr]
    rw [render_true_of_forall hc hno]
    rfl
  · rw [constructorText, hc, Option.bind_some, hr]
    exact render_true_of_forall hc hno

/-- The source of a class with a method that has a parameter. -/
def crossedSource : String := "1;class A\x7bm(é:B)\x7b\x7d\x7d"

/-- The class, with places that overlap at the parameter, and one inside its name. -/
def crossedClass : Symbol where
  name := "A"
  path := ["app"]
  qualified := "app.A"
  uri := "u.avt"
  kind := .classSymbol
  span := ⟨2, 20⟩
  nameSpan := ⟨8, 9⟩
  content := "class A\x7bm(é:B)\x7b\x7d\x7d"
  decorators := []
  isExported := false
  docs := []
  table := Table.empty.insert "B" ⟨some "app.B", .ofList [⟨15, 16⟩]⟩
    |>.insert ":B" ⟨some "any", .ofList [⟨14, 16⟩]⟩
    |>.insert "é" ⟨some "e", .ofList [⟨12, 13⟩]⟩
    |>.insert "A" ⟨some "app.A", .ofList [⟨8, 9⟩]⟩
  classInfo := some (ClassInfo.addMethod { isInterface := false, isAbstract := false }
    ⟨"m", ⟨10, 19⟩, ⟨10, 11⟩, [], false, false⟩)

/-- The method is written as it is within the class. -/
theorem composes_render_crossedClass :
    sliceString? crossedSource crossedClass.span = some crossedClass.content ∧
      crossedClass.HasExtent ∧ crossedClass.IsBorder 10 ∧ crossedClass.IsBorder 19 ∧
      ¬crossedClass.IsBorder 15 ∧
      crossedClass.compiled = "class app.A\x7b" ++ "m(é:app.B)\x7b\x7d" ++ "\x7d" ∧
      crossedClass.memberText? "m" = some "m(é:app.B)\x7b\x7d" := by
  have hx : sliceString? crossedSource crossedClass.span = some crossedClass.content := by
    rw [sliceString?_eq]
    rfl
  have hextent : crossedClass.HasExtent := by decide
  have hstart : crossedClass.IsBorder 10 := by decide
  have hstop : crossedClass.IsBorder 19 := by decide
  have hfits : Span.Fits ⟨10, 19⟩ crossedSource := Edit.inBounds_iff.mp (by decide)
  have hcomposes := composes_render.2 crossedClass crossedSource hx hextent
  -- The three pieces of the source.
  have hfront : crossedClass.source? ⟨2, 10⟩ = some "class A\x7b" :=
    source?_eq_some_iff.mpr ⟨[], "m(é:B)\x7b\x7d\x7d".toList, by decide⟩
  have hmiddle : crossedClass.source? ⟨10, 19⟩ = some "m(é:B)\x7b\x7d" :=
    source?_eq_some_iff.mpr ⟨"class A\x7b".toList, "\x7d".toList, by decide⟩
  have hback : crossedClass.source? ⟨19, 20⟩ = some "\x7d" :=
    source?_eq_some_iff.mpr ⟨"class A\x7bm(é:B)\x7b\x7d".toList, [], by decide⟩
  have hedits : crossedClass.editsIn ⟨10, 19⟩ false =
      [⟨⟨5, 6⟩, "app.B"⟩, ⟨⟨4, 6⟩, "any"⟩, ⟨⟨2, 3⟩, "e"⟩] := by decide
  have hmember : crossedClass.render ⟨10, 19⟩ false = "m(é:app.B)\x7b\x7d" := by
    rw [render_of_source? hmiddle, hedits, Edit.applyPossible, Edit.sort,
      List.mergeSort_of_pairwise (by decide)]
    decide
  refine ⟨hx, hextent, hstart, hstop, by decide, ?_, ?_⟩
  · have hpart := hcomposes.part (r := ⟨10, 19⟩) (by decide) hfits hstart hstop
    have hname : crossedClass.editsIn ⟨2, 10⟩ false = [⟨⟨6, 7⟩, "app.A"⟩] := by decide
    have hnone : crossedClass.editsIn ⟨19, 20⟩ false = [] := by decide
    rw [hmember, show crossedClass.span = ⟨2, 20⟩ from rfl, render_of_source? hfront, hname,
      render_of_source? hback, hnone, Edit.applyPossible_nil] at hpart
    rw [hpart, Edit.applyPossible, Edit.sort, List.mergeSort_singleton]
    decide
  · rw [hcomposes.member (c := crossedClass.classInfo.getD default) (r := ⟨10, 19⟩) rfl
      (by decide) (by decide), hmember]

end Symbol

end Bindery
