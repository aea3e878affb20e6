import Bindery.Proofs.Binding.Beside
import Bindery.Proofs.Binding.Lineage

/-!
# The base that a class waits for

A class waits for the import that its base goes by. Whether it will be told of that import is decided
by its clauses: whatever else its body refers to, the same name waits.

* `Tree.HasNamedBases`: the types of heritage clauses are names.
* `Context.mem_deferred_iff_of_awaited`: when the name that a class waits for is deferred.
* `Bound.Cognate`: two symbols of one declaration that wait for the same base.
* **`Context.SameUnit.cognate`**: what a statement declares, whatever else is referred to.
-/

namespace Bindery

/-! ## Names without arguments -/

theorem stripArguments_stripArguments (name : String) :
    (stripArguments (stripArguments name).1).1 = (stripArguments name).1 := by
  have hnone : ∀ n, splitArguments? n.toList = none → (stripArguments n).1 = n := by
    intro n hn
    rw [stripArguments, hn]
  cases hsplit : splitArguments? name.toList with
  | none => rw [hnone name hsplit, hnone name hsplit]
  | some parts =>
    obtain ⟨front, middle, tail⟩ := parts
    have hname : (stripArguments name).1 = String.ofList (front ++ tail) := by
      rw [stripArguments, hsplit]
    rw [hname]
    apply hnone
    unfold splitArguments? at hsplit
    dsimp only at hsplit
    split_ifs at hsplit
    rw [Option.some.injEq, Prod.mk.injEq, Prod.mk.injEq] at hsplit
    obtain ⟨rfl, -, rfl⟩ := hsplit
    set tail := ((name.toList.dropWhile (· ≠ '<')).reverse.takeWhile (· ≠ '>')).reverse
    have htail : ∀ c ∈ tail, c ≠ '>' := by
      intro c hc
      simpa using List.mem_takeWhile_imp (List.mem_reverse.mp hc)
    -- Behind the first `<` that is left there is no `>`.
    have hrest : (tail.dropWhile (· ≠ '<')).reverse.takeWhile (· ≠ '>') =
        (tail.dropWhile (· ≠ '<')).reverse := by
      apply List.takeWhile_eq_self_iff.mpr
      intro c hc
      simpa using htail c ((List.dropWhile_sublist _).subset (List.mem_reverse.mp hc))
    have hfront : ∀ c ∈ name.toList.takeWhile (· ≠ '<'), decide (c ≠ '<') = true := by
      intro c hc
      simpa using List.mem_takeWhile_imp hc
    rw [splitArguments?, String.toList_ofList, List.dropWhile_append_of_pos hfront]
    simp only [hrest, List.reverse_reverse, lt_irrefl, if_false]

/-! ## Named bases -/

/-- **The types of heritage clauses are names** that can refer to a declaration. -/
def Tree.HasNamedBases (t : Tree) : Prop :=
  ∀ clause kind types, t.form? clause = some (.heritage kind types) → ∀ type ∈ types,
    ∃ name arguments, t.form? type = some (.instantiation name arguments) ∧
      Draft.isRejected (t.text name) = false

namespace Context

open Draft

variable {cx cx' : Context} {s : Symbol} {rs : List Reference} {b b' : Bound} {n : String}

theorem mem_heritageReferences_of_inherited (hn : cx.tree.HasNamedBases)
    (hs : cx.scope.isLibrary = false) (hidden : List String) {clauses : List Slot} {x : Inherited}
    (hx : x ∈ clauses.flatMap cx.inherited) {w : TypeWord} (hw : x.shape.word? = some w) :
    isRejected w.value = false ∧
      ∃ r ∈ cx.heritageReferences hidden clauses, r.name = w.value ∧ r.hidden = hidden := by
  obtain ⟨clause, -, hxc⟩ := List.mem_flatMap.mp hx
  unfold inherited at hxc
  split at hxc
  · rename_i kind types hclause
    obtain ⟨shape, hshape, rfl⟩ := List.mem_map.mp hxc
    obtain ⟨type, htype, hof⟩ := List.mem_filterMap.mp hshape
    obtain ⟨name, arguments, hform, hr⟩ := hn clause kind types hclause type htype
    obtain ⟨node, hnode, hnf⟩ := Option.map_eq_some_iff.mp hform
    rw [TypeShape.ofNode?, TypeShape.build, if_neg (Nat.not_lt_zero _), hnode] at hof
    dsimp only at hof
    rw [hnf] at hof
    obtain ⟨span, -, rfl⟩ := Option.map_eq_some_iff.mp hof
    obtain rfl : _ = w := Option.some.inj hw
    let r : Reference := ⟨cx.tree.text name, some ⟨node.span.start, span.stop⟩, true, hidden⟩
    refine ⟨hr, r, List.mem_flatMap.mpr ⟨_, hx, ?_⟩, rfl, rfl⟩
    rw [shapeReferences, if_neg (by rw [hs]; decide)]
    exact List.mem_map.mpr ⟨_, List.mem_filter.mpr ⟨List.mem_cons_self, rfl⟩, rfl⟩
  · cases hxc

/-! ## What waits -/

theorem mem_opened_iff {t : Reference} : t ∈ cx.opened s rs ↔
    ∃ r ∈ rs, r.tracked? cx s = some t ∧ t.isOpen s = true := by
  rw [opened, List.mem_filter, tracked, List.mem_filterMap]
  constructor
  · rintro ⟨⟨r, hr, ht⟩, ho⟩
    exact ⟨r, hr, ht, ho⟩
  · rintro ⟨r, hr, ht, ho⟩
    exact ⟨⟨r, hr, ht⟩, ho⟩

theorem IsBoundAs.mem_deferred_iff (h : cx.IsBoundAs (s, rs) b) :
    n ∈ b.deferred.map Deferral.name ↔
      cx.target? n = none ∧ n ∈ (cx.opened s rs).map Reference.name := by
  rw [← Reference.mem_map_name_firsts, show b.deferred = _ from h.deferred]
  constructor
  · intro hn
    obtain ⟨d, hd, rfl⟩ := List.mem_map.mp hn
    obtain ⟨r, hr, hrd⟩ := List.mem_filterMap.mp hd
    obtain ⟨hname, ht⟩ := cx.name_deferral r hrd
    rw [hname]
    exact ⟨ht, List.mem_map_of_mem hr⟩
  · rintro ⟨ht, hn⟩
    obtain ⟨r, hr, rfl⟩ := List.mem_map.mp hn
    refine List.mem_map.mpr ⟨⟨r.name, r.strong, r.location?.isSome⟩, ?_, rfl⟩
    refine List.mem_filterMap.mpr ⟨r, hr, ?_⟩
    rw [deferral?, if_neg (by rw [ht]; decide)]

theorem mem_opened_of_hidden {ts : List Reference} {r t : Reference} (hr : r ∈ rs)
    (hrej : isRejected r.name = false) (ht : t ∈ cx.opened s ts) (hname : t.name = r.name)
    (hhidden : r.hidden ⊆ t.hidden) : r.name ∈ (cx.opened s rs).map Reference.name := by
  obtain ⟨r', -, htrack, hopen⟩ := mem_opened_iff.mp ht
  rw [Reference.tracked?] at htrack
  split_ifs at htrack with hc
  cases htrack
  have hstrip : r.strip.name = r.name := by
    rw [Reference.name_strip, ← hname, Reference.name_strip, stripArguments_stripArguments]
  obtain ⟨-, hq, hb⟩ := by simpa only [not_or] using hc
  rw [Reference.isOpen_iff, hname] at hopen
  refine List.mem_map.mpr ⟨r.strip, mem_opened_iff.mpr ⟨r, hr, ?_, ?_⟩, hstrip⟩
  · rw [Reference.tracked?, hrej, hstrip, ← hname, if_neg (by simp [hq, hb])]
  · rw [Reference.isOpen_iff, hstrip, Reference.hidden_strip]
    exact ⟨fun hm => hopen.1 (hhidden hm), hopen.2⟩

/-- The type parameters of a class hide its names in its whole body. -/
theorem hidden_bodyReferences {i : Nat} {parts : ClassParts} {parameters : List String}
    {r : Reference} (hr : r ∈ cx.bodyReferences i parts parameters) : parameters ⊆ r.hidden := by
  unfold bodyReferences at hr
  split_ifs at hr
  · cases hr
  · rcases List.mem_append.mp hr with hr | hr
    · obtain ⟨c, -, hr⟩ := List.mem_flatMap.mp hr
      obtain ⟨r', -, rfl⟩ := List.mem_map.mp hr
      exact List.subset_append_left _ _
    · obtain ⟨r', -, rfl⟩ := List.mem_map.mp hr
      exact List.Subset.refl _

/-- **The name that a class waits for is deferred** iff its clauses refer to it. -/
theorem mem_deferred_iff_of_awaited (hn : cx.tree.HasNamedBases) {kind : ClassKind} {i : Nat}
    {parts : ClassParts} {ds : List Diagnostic} (h : cx.bindClass kind i parts = some (b, ds))
    {c : ClassInfo} (hc : b.symbol.classInfo = some c) (ha : c.awaitedBase = some n) :
    n ∈ b.deferred.map Deferral.name ↔ cx.target? n = none ∧ n ∈ (cx.opened b.symbol
      (cx.heritageReferences (cx.parameterNames parts.typeParameters) parts.heritage)).map
        Reference.name := by
  obtain ⟨s, hb⟩ := isBoundAs_bindClass h
  set hidden := cx.parameterNames parts.typeParameters
  rw [hb.mem_deferred_iff, opened_of_bare (show b.symbol.bare = s.bare from hb.bare)]
  refine and_congr_right fun _ => ⟨fun hm => ?_, fun hm => ?_⟩
  · -- What the body refers to is hidden there as it is in the clauses.
    obtain ⟨t, ht, htn⟩ := List.mem_map.mp hm
    obtain ⟨r, hr, htrack, hopen⟩ := mem_opened_iff.mp ht
    rcases List.mem_append.mp hr with hr | hr
    · exact List.mem_map.mpr ⟨t, mem_opened_iff.mpr ⟨r, hr, htrack, hopen⟩, htn⟩
    · have hlib : cx.scope.isLibrary = false := by
        by_contra hlib
        rw [bodyReferences, if_pos (by simpa using hlib)] at hr
        cases hr
      obtain ⟨c', hc', -, ha'⟩ := inherits_bindClass hlib h
      rw [hc, Option.some.injEq] at hc'
      rw [← hc', ha, eq_comm, awaitedBase?, Option.bind_eq_some_iff] at ha'
      obtain ⟨x, hx, hw⟩ := ha'
      obtain ⟨w, hword, rfl⟩ := Option.map_eq_some_iff.mp (Option.filter_eq_some_iff.mp hw).1
      obtain ⟨x, hmem, rfl⟩ := List.mem_map.mp (List.mem_of_mem_head? hx)
      obtain ⟨hrej, r', hr', hname, hhidden⟩ :=
        mem_heritageReferences_of_inherited hn hlib hidden (List.mem_of_mem_filter hmem) hword
      rw [← hname] at hrej htn ⊢
      apply mem_opened_of_hidden hr' hrej (mem_opened_iff.mpr ⟨r, hr, htrack, hopen⟩) htn
      have hbody := hidden_bodyReferences hr
      rw [Reference.tracked?] at htrack
      split_ifs at htrack
      cases htrack
      rwa [hhidden, Reference.hidden_strip]
  · obtain ⟨t, ht, htn⟩ := List.mem_map.mp hm
    obtain ⟨r, hr, htrack, hopen⟩ := mem_opened_iff.mp ht
    exact List.mem_map.mpr ⟨t, mem_opened_iff.mpr ⟨r, List.mem_append_left _ hr, htrack, hopen⟩, htn⟩

end Context

/-! ## Two symbols -/

/-- **Two symbols of one declaration** that wait for the same base, whatever else they refer to. -/
structure Bound.Cognate (b b' : Bound) : Prop where
  bare : b.symbol.bare = b'.symbol.bare
  classInfo : b.symbol.classInfo.map ClassInfo.orphan = b'.symbol.classInfo.map ClassInfo.orphan
  waits : ∀ c n, b.symbol.classInfo = some c → c.awaitedBase = some n →
    (n ∈ b.deferred.map Deferral.name ↔ n ∈ b'.deferred.map Deferral.name)

namespace Context.SameUnit

variable {cx cx' : Context} (h : cx.SameUnit cx')

include h

theorem readsMore : cx.ReadsMore (fun _ => False) (fun _ => False) cx' :=
  ⟨h.tree ▸ .refl _, h.options, Scope.uri_of_drained h.scope, Scope.path_of_drained h.scope,
    Scope.kind_of_drained h.scope, fun hd => hd.elim, fun hd => hd.elim,
    fun _ _ _ _ _ hd => hd.elim, fun _ _ _ _ hd => hd.elim⟩

/-- **What a statement declares** waits for the same bases, whatever else it refers to. -/
theorem cognate (hn : cx.tree.HasNamedBases) {statement : Slot} {b b' : Bound}
    (hb : b ∈ (cx.bind statement).1) (hb' : b' ∈ (cx'.bind statement).1)
    (hbare : b.symbol.bare = b'.symbol.bare)
    (hi : b.symbol.classInfo.map ClassInfo.orphan = b'.symbol.classInfo.map ClassInfo.orphan) :
    b.Cognate b' := by
  refine ⟨hbare, hi, fun c n hc ha => ?_⟩
  obtain ⟨c', hc', hcc⟩ : ∃ c', b'.symbol.classInfo = some c' ∧ c'.orphan = c.orphan := by
    rw [hc, Option.map_some, eq_comm] at hi
    exact Option.map_eq_some_iff.mp hi
  have ha' : c'.awaitedBase = some n := (congrArg ClassInfo.awaitedBase hcc :).trans ha
  obtain ⟨kind, i, parts, ds, hform, hclass⟩ :=
    class_of_mem_bind hb (by rw [Symbol.isClassOrInterface, hc]; rfl)
  obtain ⟨kind', i', parts', ds', hform', hclass'⟩ :=
    class_of_mem_bind hb' (by rw [Symbol.isClassOrInterface, hc']; rfl)
  rw [← h.tree, hform, Option.some.injEq, Form.classLike.injEq] at hform'
  obtain ⟨rfl, rfl⟩ := hform'
  rw [mem_deferred_iff_of_awaited hn hclass hc ha,
    mem_deferred_iff_of_awaited (h.tree ▸ hn) hclass' hc' ha', h.sameMeaning.target?,
    h.parameterNames, h.readsMore.heritageReferences, opened_of_bare hbare, opened, opened,
    tracked_congr h.sameMeaning.isBuiltin]

end Context.SameUnit

end Bindery
