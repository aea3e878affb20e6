import Bindery.Proofs.Binding.Alongside
import Bindery.Proofs.Roster

/-!
# Names that stand for themselves

A name that is dotted, or that nothing declares or imports, stands for itself: it is written as it
is, and the dependency on it leads out of the build. Further references to such names change nothing
else about a symbol.

* `Scope.isFree`: a name stands for itself.
* `Context.tracked_padded`, `Context.met_padded`, `Context.mentions?_padded`: what further references
  to free names leave alone.
* `Bound.Beside`: two symbols of one declaration, the second with such references added.
* **`Context.IsBoundAs.beside`**: what a declaration becomes when more references are read.
-/

namespace Bindery

/-- **A name stands for itself.** -/
def Scope.isFree (s : Scope) (n : String) : Bool :=
  match s.meaning n with
  | .qualified | .ambient => true
  | _ => false

theorem Scope.isFree_iff {s : Scope} {n : String} :
    s.isFree n = true ↔ (s.meaning n).target? n = some (n, .ambient) := by
  unfold isFree
  cases s.meaning n <;> simp [Meaning.target?]

theorem Scope.isQualified_of_not_free {s : Scope} {n : String} (h : s.isFree n = false) :
    isQualified n = false := by
  cases hq : isQualified n with
  | false => rfl
  | true =>
    rw [isFree, meaning, if_pos hq] at h
    cases h

theorem Scope.isFree_of_drained {s t : Scope} (h : s.drained = t.drained) : s.isFree = t.isFree := by
  funext n
  rw [isFree, meaning_of_drained h, isFree]

/-! ## References to free names -/

theorem Reference.name_strip (r : Reference) : r.strip.name = (stripArguments r.name).1 := by
  have hbytes : ∀ cs : List Char, Text.byteLength cs = 0 → cs = [] := by
    intro cs h
    cases cs with
    | nil => rfl
    | cons c cs =>
      have hc := Char.utf8Size_pos c
      simp only [Text.byteLength] at h
      omega
  have hzero : (stripArguments r.name).2 = 0 → (stripArguments r.name).1 = r.name := by
    unfold stripArguments
    cases hsplit : splitArguments? r.name.toList with
    | none => exact fun _ => rfl
    | some parts =>
      obtain ⟨front, middle, tail⟩ := parts
      intro hmiddle
      -- What is left out starts with a `<`, so that it has a byte at least.
      unfold splitArguments? at hsplit
      dsimp only at hsplit
      split_ifs at hsplit with hlen
      have hm : _ = middle := (Prod.mk.inj (Prod.mk.inj (Option.some.inj hsplit)).2).1
      have hnil := hbytes middle hmiddle
      rw [← hm, List.take_eq_nil_iff] at hnil
      rcases hnil with hnil | hnil
      · omega
      · rw [hnil] at hlen
        exact absurd hlen (Nat.not_lt_zero _)
  unfold strip
  dsimp only
  split_ifs with h
  · exact (hzero h).symm
  · rfl

namespace Context

open Reference

variable {cx : Context} {s : Symbol} {rs rs' : List Reference}

/-- The name of a reference is not free. -/
def isLed (cx : Context) (r : Reference) : Bool := !cx.scope.isFree r.name

/-- **The same references, with others to free names in between.** -/
def Padded (cx : Context) (rs rs' : List Reference) : Prop :=
  Bindery.Padded (fun n => cx.scope.isFree (stripArguments n).1 = true) rs rs'

theorem isWritten_eq (n : String) : cx.isWritten s rs n =
    (((cx.tracked s rs).filter (·.name = n)).dropWhile fun r => !r.isPlaceOf n).any fun r =>
      r.name = n && r.isOpen s := by
  have hany : ∀ ts : List Reference, ts.any (fun r => r.name = n && r.isOpen s) =
      (ts.filter (·.name = n)).any fun r => r.name = n && r.isOpen s := by
    intro ts
    rw [List.any_filter]
    congr 1
    funext r
    by_cases hr : r.name = n <;> simp [hr]
  unfold isWritten
  induction cx.tracked s rs with
  | nil => rfl
  | cons r ts ih =>
    by_cases hr : r.name = n
    · rw [List.filter_cons_of_pos (by simpa using hr), List.dropWhile_cons, List.dropWhile_cons]
      split_ifs
      · exact ih
      · rw [List.any_cons, List.any_cons, hany ts]
    · rw [List.filter_cons_of_neg (by simpa using hr), List.dropWhile_cons_of_pos, ih]
      simp [isPlaceOf, hr]

section Padded

variable (h : cx.Padded rs rs') (s)

include h

theorem tracked_padded : (cx.tracked s rs).Sublist (cx.tracked s rs') ∧
    (cx.tracked s rs').filter cx.isLed = (cx.tracked s rs).filter cx.isLed := by
  unfold Padded at h
  induction h with
  | nil => exact ⟨.refl _, rfl⟩
  | @keep rs rs' r _ ih =>
    cases hr : r.tracked? cx s with
    | none => simpa [tracked, hr] using ih
    | some t =>
      simp only [tracked, List.filterMap_cons, hr]
      refine ⟨ih.1.cons_cons t, ?_⟩
      rw [List.filter_cons, List.filter_cons]
      exact congrArg (fun ts => if cx.isLed t = true then t :: ts else ts) ih.2
  | @extra rs rs' r hfree _ ih =>
    cases hr : r.tracked? cx s with
    | none => simpa [tracked, hr] using ih
    | some t =>
      have ht : ¬cx.isLed t = true := by
        rw [tracked?] at hr
        split_ifs at hr
        cases hr
        rw [isLed, name_strip, hfree]
        decide
      simp only [tracked, List.filterMap_cons, hr]
      exact ⟨ih.1.cons t, (List.filter_cons_of_neg ht).trans ih.2⟩

theorem met_padded : (cx.met s rs').filter cx.isLed = (cx.met s rs).filter cx.isLed := by
  have hmet : ∀ rs, (cx.met s rs).filter cx.isLed =
      firsts (((cx.tracked s rs).filter cx.isLed).filter (isOpen s)) := by
    intro rs
    rw [met, opened, List.filter_comm]
    exact filter_firsts (fun n => !cx.scope.isFree n) _
  rw [hmet, (tracked_padded s h).2, ← hmet]

theorem mem_met_padded {n : String} (hn : n ∈ (cx.met s rs).map Reference.name) :
    n ∈ (cx.met s rs').map Reference.name := by
  rw [met, mem_map_name_firsts] at hn ⊢
  exact (((tracked_padded s h).1.filter _).map _).subset hn

theorem placedNames_padded : (cx.placedNames s rs').toList.filter (fun n => !cx.scope.isFree n) =
    (cx.placedNames s rs).toList.filter fun n => !cx.scope.isFree n := by
  have hplaced : ∀ rs, (cx.placedNames s rs).toList.filter (fun n => !cx.scope.isFree n) =
      (Roster.ofList ((((cx.tracked s rs).filter cx.isLed).filter (·.location?.isSome)).map
        Reference.name)).toList := by
    intro rs
    rw [placedNames, Roster.filter_ofList, List.filter_map, List.filter_comm]
    rfl
  rw [hplaced, (tracked_padded s h).2, ← hplaced]

theorem mentions?_padded {n : String} (hn : cx.scope.isFree n = false) :
    cx.mentions? s rs' n = cx.mentions? s rs n := by
  have hnamed : (cx.tracked s rs').filter (·.name = n) = (cx.tracked s rs).filter (·.name = n) := by
    have hled : ∀ ts : List Reference,
        (ts.filter cx.isLed).filter (·.name = n) = ts.filter (·.name = n) := by
      intro ts
      rw [List.filter_filter]
      apply List.filter_congr
      intro r _
      by_cases hr : r.name = n <;> simp [isLed, hr, hn]
    rw [← hled, (tracked_padded s h).2, hled]
  rw [mentions?, placesOf, isWritten_eq, hnamed, mentions?, placesOf, isWritten_eq]

end Padded

/-! ## Free names -/

theorem deferral?_of_free {r : Reference} (h : cx.scope.isFree r.name = true) :
    cx.deferral? r = none := by
  rw [deferral?, target?, Scope.isFree_iff.mp h]
  rfl

theorem replacement?_of_free {n : String} (h : cx.scope.isFree n = true) :
    cx.replacement? n = none := by
  unfold Scope.isFree at h
  unfold replacement?
  cases hm : cx.scope.meaning n <;> simp_all [Meaning.replacement?]

/-- A dependency leads out of the build iff its name is free. -/
theorem origin_of_edge? {r : Reference} {e : Dependency} (h : cx.edge? s r = some e) :
    e.origin = .ambient ↔ cx.scope.isFree r.name = true := by
  rw [edge?, Option.bind_eq_some_iff] at h
  obtain ⟨⟨target, origin⟩, ht, h⟩ := h
  split_ifs at h
  cases h
  rw [Scope.isFree_iff, ht]
  constructor
  · rintro rfl
    unfold Meaning.target? at ht
    split at ht <;> simp_all
  · intro hfree
    exact congrArg Prod.snd (Option.some.inj hfree)

/-- What is deferred comes from names that are not free. -/
theorem filterMap_deferral? (rs : List Reference) :
    rs.filterMap cx.deferral? = (rs.filter cx.isLed).filterMap cx.deferral? := by
  rw [List.filterMap_filter]
  congr 1
  funext r
  cases hr : cx.scope.isFree r.name with
  | false => simp [isLed, hr]
  | true => simp [isLed, hr, deferral?_of_free hr]

theorem filterMap_edge? (rs : List Reference) :
    (rs.filterMap (cx.edge? s)).filter (·.origin ≠ .ambient) =
      (rs.filter cx.isLed).filterMap (cx.edge? s) := by
  rw [List.filter_filterMap, List.filterMap_filter]
  congr 1
  funext r
  cases hr : cx.edge? s r with
  | none => simp
  | some e =>
    have ho := origin_of_edge? hr
    cases hfree : cx.scope.isFree r.name <;> simp_all [isLed, Option.filter_some]

end Context

/-! ## Symbols -/

/-- **Two symbols of one declaration**, the second of which has further references to free names. -/
structure Bound.Beside (free : String → Bool) (b b' : Bound) : Prop where
  bare : b.symbol.bare = b'.symbol.bare
  classInfo : b.symbol.classInfo.map ClassInfo.orphan = b'.symbol.classInfo.map ClassInfo.orphan
  deferred : b.deferred = b'.deferred
  /-- No name that waits is free. -/
  waits : ∀ d ∈ b.deferred, free d.name = false
  /-- The same names that are not free stand at the same places. -/
  table : b.symbol.table.entries.filter (fun e => !free e.1) =
    b'.symbol.table.entries.filter fun e => !free e.1
  /-- Nothing is written for free names. -/
  unwritten : ∀ n m, free n = true →
    b.symbol.table.get? n = some m ∨ b'.symbol.table.get? n = some m → m.replacement = none
  edges : b.symbol.edges.filter (·.origin ≠ .ambient) =
    b'.symbol.edges.filter (·.origin ≠ .ambient)
  outer : ∀ e ∈ b.symbol.edges, e.origin = .ambient →
    ∃ e' ∈ b'.symbol.edges, e'.target = e.target ∧ e'.origin = .ambient

theorem Bound.Beside.mem_edges_iff {free : String → Bool} {b b' : Bound} (h : b.Beside free b')
    {e : Dependency} (ho : e.origin ≠ .ambient) : e ∈ b.symbol.edges ↔ e ∈ b'.symbol.edges := by
  have hm : e ∈ b.symbol.edges.filter (·.origin ≠ .ambient) ↔
      e ∈ b'.symbol.edges.filter (·.origin ≠ .ambient) := by rw [h.edges]
  simpa [ho] using hm

namespace Context

variable {cx cx' : Context} {s : Symbol} {rs rs' : List Reference} {b b' : Bound}

/-- **More references to free names.** -/
theorem IsBoundAs.beside (h : cx.IsBoundAs (s, rs) b) (h' : cx.IsBoundAs (s, rs') b')
    (hp : cx.Padded rs rs')
    (hi : b.symbol.classInfo.map ClassInfo.orphan = b'.symbol.classInfo.map ClassInfo.orphan) :
    b.Beside cx.scope.isFree b' := by
  have hdeferred : b.deferred = _ := h.deferred
  have hdeferred' : b'.deferred = _ := h'.deferred
  have hedges : b.symbol.edges = _ := h.edges
  have hedges' : b'.symbol.edges = _ := h'.edges
  have hmentions : ∀ n, b.symbol.table.get? n = cx.mentions? s rs n := h.mentions
  have hmentions' : ∀ n, b'.symbol.table.get? n = cx.mentions? s rs' n := h'.mentions
  refine
    { bare := h.bare.trans h'.bare.symm
      classInfo := hi
      deferred := ?deferred
      waits := ?waits
      table := ?table
      unwritten := ?unwritten
      edges := ?edges
      outer := ?outer }
  case deferred =>
    rw [hdeferred, hdeferred', filterMap_deferral?, filterMap_deferral? (cx.met s rs'),
      met_padded s hp]
  case waits =>
    intro d hd
    rw [hdeferred] at hd
    obtain ⟨r, -, hrd⟩ := List.mem_filterMap.mp hd
    rw [(cx.name_deferral r hrd).1]
    by_contra hfree
    rw [deferral?_of_free (Bool.not_eq_false _ ▸ hfree)] at hrd
    cases hrd
  case table =>
    apply Table.filter_entries (q := fun n => !cx.scope.isFree n)
    · rw [show b.symbol.table.keys = _ from h.placed, show b'.symbol.table.keys = _ from h'.placed,
        placedNames_padded s hp]
    · intro n hn
      rw [hmentions, hmentions', mentions?_padded s hp (by simpa using hn)]
  case unwritten =>
    intro n m hn hm
    have hnone : ∀ rs, cx.mentions? s rs n = some m → m.replacement = none := by
      intro rs hm
      unfold mentions? at hm
      split_ifs at hm
      · cases hm
        exact replacement?_of_free hn
      · cases hm
        rfl
    rw [hmentions, hmentions'] at hm
    exact hm.elim (hnone rs) (hnone rs')
  case edges => rw [hedges, hedges', filterMap_edge?, filterMap_edge?, met_padded s hp]
  case outer =>
    intro e he ho
    rw [hedges] at he
    obtain ⟨r, hr, hre⟩ := List.mem_filterMap.mp he
    have hfree := (origin_of_edge? hre).mp ho
    obtain ⟨r', hr', hn⟩ := List.mem_map.mp (mem_met_padded s hp (List.mem_map_of_mem hr))
    rw [edge?, Scope.isFree_iff.mp hfree, Option.bind_some] at hre
    split_ifs at hre with hq
    cases hre
    refine ⟨⟨r.name, .ambient, r'.strong⟩, ?_, rfl, rfl⟩
    rw [hedges']
    refine List.mem_filterMap.mpr ⟨r', hr', ?_⟩
    rw [edge?, hn, Scope.isFree_iff.mp hfree, Option.bind_some, if_neg hq]

end Context

end Bindery
