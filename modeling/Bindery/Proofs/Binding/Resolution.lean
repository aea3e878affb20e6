import Bindery.Proofs.Binding.Mentioned
import Bindery.Proofs.Symbol.Bare

/-!
# What resolving references leaves behind

A draft goes through its references one by one. What it holds in the end can be read off the list of
references: nothing depends on how the draft got there.

* `Draft.Reflects`: the draft holds what the references add up to.
* **`Draft.Reflects.resolve`**: one more reference, and the target it is told.
* **`Draft.Reflects.resolveAll`**, **`Draft.Reflects.resolveFirst`**: several in turn.
-/

namespace Bindery.Draft

open Reference

/-- **What a draft holds** after the references `rs` of the declaration `s`. -/
structure Reflects (cx : Context) (s : Symbol) (rs : List Reference) (d : Draft) : Prop where
  bare : d.symbol.bare = s.bare
  loaded : d.symbol.loaded.entries = (cx.met s rs).map fun r => (r.name, cx.target? r.name)
  deferred : d.deferred = (cx.met s rs).filterMap cx.deferral?
  edges : d.symbol.edges = (cx.met s rs).filterMap (cx.edge? s)
  placed : d.symbol.table.keys = (cx.placedNames s rs).toList
  mentions : ∀ n, d.symbol.table.get? n = cx.mentions? s rs n

variable {cx : Context} {s : Symbol} {rs : List Reference} {d : Draft}

theorem reflects_start (ht : s.table = {}) (he : s.edges = []) (hl : s.loaded = {}) :
    Reflects cx s [] { symbol := s } where
  bare := rfl
  loaded := by rw [hl]; rfl
  deferred := rfl
  edges := he
  placed := by rw [ht]; rfl
  mentions n := by rw [ht]; rfl

/-- What is known of a class is not read while references are resolved. -/
theorem Reflects.congr (h : d.Reflects cx s rs) {d' : Draft} (hb : d'.symbol.bare = d.symbol.bare)
    (ht : d'.symbol.table = d.symbol.table) (he : d'.symbol.edges = d.symbol.edges)
    (hl : d'.symbol.loaded = d.symbol.loaded) (hd : d'.deferred = d.deferred) :
    d'.Reflects cx s rs := by
  refine ⟨hb.trans h.bare, ?_, hd.trans h.deferred, he.trans h.edges, ?_, ?_⟩
  · rw [hl, h.loaded]
  · rw [ht, h.placed]
  · rw [ht]
    exact h.mentions

theorem Reflects.updateClass (h : d.Reflects cx s rs) (f : ClassInfo → ClassInfo) :
    { d with symbol := d.symbol.updateClass f }.Reflects cx s rs :=
  h.congr (Symbol.bare_updateClass _ f) rfl rfl rfl rfl

theorem Reflects.setClass (h : d.Reflects cx s rs) (hs : s.isClassOrInterface = true)
    (c : ClassInfo) : { d with symbol.classInfo := some c }.Reflects cx s rs := by
  refine h.congr ?_ rfl rfl rfl rfl
  have hd : d.symbol.classInfo.isSome = true := by
    rw [← hs]
    exact Symbol.isClassOrInterface_of_bare h.bare
  obtain ⟨c', hc⟩ := Option.isSome_iff_exists.mp hd
  simp [Symbol.bare, hc]

theorem Reflects.of_tracked (h : d.Reflects cx s rs) {rs' : List Reference}
    (ht : cx.tracked s rs' = cx.tracked s rs) : d.Reflects cx s rs' := by
  have hm : cx.met s rs' = cx.met s rs := by
    rw [Context.met, Context.opened, ht]
    rfl
  refine ⟨h.bare, ?_, ?_, ?_, ?_, fun n => ?_⟩
  · rw [hm, h.loaded]
  · rw [hm, h.deferred]
  · rw [hm, h.edges]
  · rw [Context.placedNames, ht, h.placed, Context.placedNames]
  · rw [Context.mentions?, Context.placesOf, Context.isWritten, ht, h.mentions]
    rfl

/-! ## Writing replacements -/

section Write

variable (d) (n : String) (o : Option String)

theorem keys_replace : (d.replace n o).symbol.table.keys = d.symbol.table.keys := by
  cases o with
  | none => rfl
  | some text => exact Symbol.keys_table_setReplacement _ _ _

theorem get?_replace (k : String) : (d.replace n o).symbol.table.get? k =
    if k = n then (d.symbol.table.get? k).map fun m => { m with replacement := o.or m.replacement }
    else d.symbol.table.get? k := by
  cases o with
  | none => simp [replace]
  | some text => simp [replace, Symbol.setReplacement, Table.get?_modify]

theorem keys_fillReplacement : (d.fillReplacement n o).symbol.table.keys = d.symbol.table.keys := by
  unfold fillReplacement
  split
  · exact keys_replace d n o
  · rfl

theorem get?_fillReplacement (k : String) : (d.fillReplacement n o).symbol.table.get? k =
    if k = n then (d.symbol.table.get? k).map fun m => { m with replacement := m.replacement.or o }
    else d.symbol.table.get? k := by
  by_cases hk : k = n
  · subst hk
    rw [if_pos rfl]
    unfold fillReplacement
    split
    · rename_i l hm
      rw [get?_replace, if_pos rfl, show d.symbol.table.get? k = _ from hm]
      simp
    · rename_i hm
      rcases hg : d.symbol.table.get? k with _ | ⟨_ | text, l⟩
      · rfl
      · exact absurd hg (hm l)
      · rfl
  · rw [if_neg hk]
    unfold fillReplacement
    split
    · rw [get?_replace, if_neg hk]
    · rfl

theorem replace_eq : d.replace n o =
    { d with symbol.table := (d.replace n o).symbol.table } := by
  cases o <;> rfl

theorem fillReplacement_eq : d.fillReplacement n o =
    { d with symbol.table := (d.fillReplacement n o).symbol.table } := by
  unfold fillReplacement
  split
  · exact replace_eq d n o
  · rfl

end Write

/-! ## Recording places -/

section Locate

variable (d) (r : Reference)

theorem locate_eq : d.locate r = { d with symbol.table := (d.locate r).symbol.table } := by
  unfold locate
  split <;> rfl

theorem keys_locate : (d.locate r).symbol.table.keys =
    if r.location?.isSome ∧ r.name ∉ d.symbol.table.keys then d.symbol.table.keys ++ [r.name]
    else d.symbol.table.keys := by
  unfold locate
  cases r.location? with
  | none => rfl
  | some l =>
    change (d.symbol.table.insert _ _).keys = _
    rw [Table.keys_insert]
    by_cases hk : r.name ∈ d.symbol.table.keys <;> simp [hk]

theorem get?_locate (n : String) : (d.locate r).symbol.table.get? n =
    match r.location? with
    | none => d.symbol.table.get? n
    | some l =>
      if n = r.name then
        some { (d.symbol.table.get? n).getD {} with
          locations := ((d.symbol.table.get? n).getD {}).locations.insert l }
      else d.symbol.table.get? n := by
  unfold locate
  cases r.location? with
  | none => rfl
  | some l =>
    change (d.symbol.table.insert _ _).get? n = _
    rw [Table.get?_insert]
    by_cases hn : n = r.name
    · simp [hn]
    · simp [hn]

end Locate

/-! ## One reference -/

/-- What is done about a reference whose place is recorded. -/
def meet (cx : Context) (d : Draft) (r : Reference) : Draft × Option String :=
  if r.isOpen d.symbol then
    match d.symbol.loaded.get? r.name with
    | some target => (d.fillReplacement r.name (cx.replacement? r.name), target)
    | none => d.interpret cx r
  else (d, none)

theorem resolve_eq (hb : d.symbol.bare = s.bare) (r : Reference) : d.resolve cx r =
    match r.tracked? cx s with
    | none => (d, none)
    | some t => (d.locate t).meet cx t := by
  have hq : d.symbol.qualified = s.qualified := Symbol.qualified_of_bare hb
  by_cases h1 : isRejected r.name = true
  · simp [resolve, tracked?, h1]
  by_cases h2 : r.strip.name = s.qualified ∨ cx.scope.isBuiltin r.strip.name = true
  · simp [resolve, resolveStripped, tracked?, h1, h2, hq]
  have ht : r.tracked? cx s = some r.strip := if_neg (not_or.mpr ⟨h1, h2⟩)
  rw [resolve, if_neg h1, resolveStripped, hq, if_neg h2, ht]
  show _ = (d.locate r.strip).meet cx r.strip
  by_cases h3 : r.strip.isOpen (d.locate r.strip).symbol = true
  · have h4 := isOpen_iff.mp h3
    rw [meet, if_pos h3]
    exact if_neg (not_or.mpr h4)
  · have h4 := mt isOpen_iff.mpr h3
    rw [meet, if_neg h3]
    exact if_pos ((not_and_or.mp h4).imp not_not.mp not_not.mp)

/-- The decision about a new name in one piece. -/
theorem interpret_eq (r : Reference) : d.interpret cx r =
    (⟨{ d.symbol with
          table := (d.replace r.name (cx.replacement? r.name)).symbol.table
          loaded := d.symbol.loaded.insert r.name (cx.target? r.name)
          edges := d.symbol.edges ++ (cx.edge? d.symbol r).toList },
        d.deferred ++ (cx.deferral? r).toList⟩,
      cx.target? r.name) := by
  have hr := cx.replacement?_of_target?_eq_none (n := r.name)
  rw [interpret, Context.deferral?, Context.edge?]
  unfold Context.target? at hr ⊢
  cases hm : (cx.scope.meaning r.name).target? r.name with
  | none =>
    rw [hr (by rw [hm]; rfl)]
    simp [load, replace]
  | some t =>
    obtain ⟨target, origin⟩ := t
    have hs := replace_eq d r.name (cx.replacement? r.name)
    by_cases ht : target = d.symbol.qualified
    · rw [hs]
      simp [load, ht]
    · rw [hs]
      simp [load, ht]

theorem Reflects.get?_loaded (h : d.Reflects cx s rs) (t : Reference) (n : String) :
    (d.locate t).symbol.loaded.get? n =
      if n ∈ (cx.met s rs).map Reference.name then some (cx.target? n) else none := by
  rw [locate_eq]
  exact Table.get?_of_entries_eq_map h.loaded n

theorem Reflects.isOpen_locate (h : d.Reflects cx s rs) (t : Reference) :
    t.isOpen (d.locate t).symbol = t.isOpen s := by
  rw [locate_eq]
  show decide _ = decide _
  rw [Symbol.ignored_of_bare h.bare]

section Step

variable (h : d.Reflects cx s rs) {r t : Reference} (ht : r.tracked? cx s = some t)

include h ht

theorem Reflects.keys_locate :
    (d.locate t).symbol.table.keys = (cx.placedNames s (rs ++ [r])).toList := by
  rw [Draft.keys_locate, h.placed, Context.placedNames, Context.placedNames,
    Context.tracked_append_of_some ht, List.filter_append, List.map_append]
  by_cases hl : t.location?.isSome = true
  · rw [show [t].filter (·.location?.isSome) = [t] by simp [hl], List.map_singleton,
      Roster.ofList_append_singleton, Roster.toList_insert]
    by_cases hm : t.name ∈ Roster.ofList
        (((cx.tracked s rs).filter (·.location?.isSome)).map Reference.name)
    · rw [if_neg (fun hc => hc.2 hm), if_pos hm]
    · rw [if_pos ⟨hl, hm⟩, if_neg hm]
  · rw [if_neg (fun hc => hl hc.1), show [t].filter (·.location?.isSome) = [] by simp [hl],
      List.map_nil, List.append_nil]

/-- Once its place is recorded, a reference has yet to be looked up. -/
theorem Reflects.get?_locate (n : String) : (d.locate t).symbol.table.get? n =
    if cx.placesOf s (rs ++ [r]) n = [] then none
    else some ⟨if cx.isWritten s rs n then cx.replacement? n else none,
      .ofList (cx.placesOf s (rs ++ [r]) n)⟩ := by
  rw [Draft.get?_locate, h.mentions, Context.mentions?, Context.placesOf_append n ht]
  cases hl : t.location? with
  | none => simp
  | some l =>
    dsimp only
    by_cases hn : n = t.name
    · by_cases hp : cx.placesOf s rs n = []
      · simp [hn, hn ▸ hp, Context.isWritten_of_placesOf _ (hn ▸ hp), Roster.ofList,
          Roster.insertAll]
        rfl
      · rw [if_neg hp, if_pos hn, if_pos hn.symm, Option.toList_some,
          if_neg (List.append_ne_nil_of_left_ne_nil hp _), Roster.ofList_append_singleton]
        rfl
    · rw [if_neg hn, if_neg (Ne.symm hn), List.append_nil]

theorem Reflects.mentions_of_not_isOpen (ho : t.isOpen s = false) (n : String) :
    (d.locate t).symbol.table.get? n = cx.mentions? s (rs ++ [r]) n := by
  rw [h.get?_locate ht, Context.mentions?, Context.isWritten_append n ht, ho]
  simp

/-- An open reference has the replacement written at every place met so far. -/
theorem Reflects.mentions_of_isOpen (ho : t.isOpen s = true) {d' : Draft}
    {f : Option String → Option String}
    (hf : ∀ b : Bool, f (if b then cx.replacement? t.name else none) = cx.replacement? t.name)
    (hd : ∀ n, d'.symbol.table.get? n =
      if n = t.name then
        ((d.locate t).symbol.table.get? n).map fun m => { m with replacement := f m.replacement }
      else (d.locate t).symbol.table.get? n)
    (n : String) : d'.symbol.table.get? n = cx.mentions? s (rs ++ [r]) n := by
  rw [hd, h.get?_locate ht, Context.mentions?, Context.isWritten_append n ht, ho]
  by_cases hn : n = t.name
  · subst hn
    by_cases hp : cx.placesOf s (rs ++ [r]) t.name = []
    · simp [hp]
    · simp [hp, hf]
  · simp [hn, Ne.symm hn]

theorem Reflects.locate (ho : t.isOpen s = false) : (d.locate t).Reflects cx s (rs ++ [r]) := by
  have hm : cx.met s (rs ++ [r]) = cx.met s rs := by
    rw [Context.met_append ht, if_neg (by simp [ho])]
  have hd := d.locate_eq t
  refine ⟨?_, ?_, ?_, ?_, h.keys_locate ht, h.mentions_of_not_isOpen ht ho⟩
  · rw [hd]
    exact h.bare
  · rw [hd, hm]
    exact h.loaded
  · rw [hd, hm]
    exact h.deferred
  · rw [hd, hm]
    exact h.edges

theorem Reflects.fillReplacement (ho : t.isOpen s = true)
    (hk : t.name ∈ (cx.met s rs).map Reference.name) :
    ((d.locate t).fillReplacement t.name (cx.replacement? t.name)).Reflects cx s (rs ++ [r]) := by
  have hm : cx.met s (rs ++ [r]) = cx.met s rs := by
    rw [Context.met_append ht, if_neg (fun hc => hc.2 hk)]
  have hd := d.locate_eq t
  have hf := (d.locate t).fillReplacement_eq t.name (cx.replacement? t.name)
  refine ⟨?_, ?_, ?_, ?_, ?_, ?_⟩
  · rw [hf, hd]
    exact h.bare
  · rw [hf, hd, hm]
    exact h.loaded
  · rw [hf, hd, hm]
    exact h.deferred
  · rw [hf, hd, hm]
    exact h.edges
  · rw [keys_fillReplacement, h.keys_locate ht]
  · refine h.mentions_of_isOpen ht ho (f := fun o => o.or (cx.replacement? t.name)) (fun b => ?_)
      (get?_fillReplacement _ _ _)
    cases b <;> simp

theorem Reflects.interpret (ho : t.isOpen s = true)
    (hk : t.name ∉ (cx.met s rs).map Reference.name) :
    ((d.locate t).interpret cx t).1.Reflects cx s (rs ++ [r]) := by
  have hm : cx.met s (rs ++ [r]) = cx.met s rs ++ [t] := by
    rw [Context.met_append ht, if_pos ⟨ho, hk⟩]
  have hd := d.locate_eq t
  have hq : (d.locate t).symbol.qualified = s.qualified := by
    rw [hd]
    exact Symbol.qualified_of_bare h.bare
  rw [interpret_eq]
  refine ⟨?_, ?_, ?_, ?_, ?_, ?_⟩
  · rw [hd]
    exact h.bare
  · have hn : t.name ∉ (d.locate t).symbol.loaded.keys := by
      rw [← Table.get?_eq_none_iff, h.get?_loaded, if_neg hk]
    rw [hm, List.map_append, Table.entries_insert hn, hd]
    exact congrArg (· ++ _) h.loaded
  · rw [hm, List.filterMap_append, ← h.deferred, hd]
    cases hx : cx.deferral? t <;> simp [hx]
  · have he : cx.edge? (d.locate t).symbol t = cx.edge? s t := by
      rw [Context.edge?, hq, Context.edge?]
    rw [hm, List.filterMap_append, ← h.edges, he, hd]
    cases hx : cx.edge? s t <;> simp [hx]
  · exact (keys_replace _ _ _).trans (h.keys_locate ht)
  · refine h.mentions_of_isOpen ht ho (f := (cx.replacement? t.name).or) (fun b => ?_)
      (get?_replace _ _ _)
    cases cx.replacement? t.name <;> simp

end Step

/-- **One more reference**, and the target it is told. -/
theorem Reflects.resolve (h : d.Reflects cx s rs) (r : Reference) :
    (d.resolve cx r).1.Reflects cx s (rs ++ [r]) ∧ (d.resolve cx r).2 = cx.outcome? s r := by
  rw [resolve_eq h.bare]
  cases ht : r.tracked? cx s with
  | none =>
    exact ⟨h.of_tracked (Context.tracked_append_of_none ht), by rw [Context.outcome?, ht]; rfl⟩
  | some t =>
    show ((d.locate t).meet cx t).1.Reflects cx s (rs ++ [r]) ∧ ((d.locate t).meet cx t).2 = _
    have hout : cx.outcome? s r = if t.isOpen s then cx.target? t.name else none := by
      rw [Context.outcome?, ht]
      rfl
    rw [meet, h.isOpen_locate, h.get?_loaded, hout]
    cases ho : t.isOpen s with
    | false => exact ⟨h.locate ht ho, rfl⟩
    | true =>
      by_cases hk : t.name ∈ (cx.met s rs).map Reference.name
      · rw [if_pos hk]
        exact ⟨h.fillReplacement ht ho hk, rfl⟩
      · rw [if_neg hk]
        exact ⟨h.interpret ht ho hk, by rw [interpret_eq]; rfl⟩

theorem classInfo_resolve (cx : Context) (d : Draft) (r : Reference) :
    (d.resolve cx r).1.symbol.classInfo = d.symbol.classInfo := by
  rw [resolve_eq (s := d.symbol) rfl]
  cases r.tracked? cx d.symbol with
  | none => rfl
  | some t =>
    show ((d.locate t).meet cx t).1.symbol.classInfo = _
    have hd : (d.locate t).symbol.classInfo = d.symbol.classInfo := by rw [locate_eq]
    unfold meet
    split_ifs
    · split
      · rw [fillReplacement_eq]
        exact hd
      · rw [interpret_eq]
        exact hd
    · exact hd

/-! ## Several references -/

theorem Reflects.resolveAll (h : d.Reflects cx s rs) (rs' : List Reference) :
    (d.resolveAll cx rs').Reflects cx s (rs ++ rs') := by
  induction rs' generalizing d rs with
  | nil => rwa [List.append_nil]
  | cons r rs' ih =>
    rw [List.append_cons]
    exact ih (h.resolve r).1

/-- **Several references in turn, and the first target that they lead to.** -/
theorem Reflects.resolveFirst (h : d.Reflects cx s rs) (rs' : List Reference) :
    (d.resolveFirst cx rs').1.Reflects cx s (rs ++ rs') ∧
      (d.resolveFirst cx rs').2 = rs'.findSome? (cx.outcome? s) := by
  suffices hs : ∀ o : Option String, ∀ state,
      state = rs'.foldl (fun (state : Draft × Option String) r =>
        ((state.1.resolve cx r).1, state.2.or (state.1.resolve cx r).2)) (d, o) →
      state.1.Reflects cx s (rs ++ rs') ∧ state.2 = o.or (rs'.findSome? (cx.outcome? s)) from
    hs none _ rfl
  rintro o state rfl
  induction rs' generalizing d rs o with
  | nil => simpa using h
  | cons r rs' ih =>
    obtain ⟨hr, ho⟩ := h.resolve r
    obtain ⟨h1, h2⟩ := ih hr (o.or (d.resolve cx r).2)
    rw [List.append_cons, List.foldl_cons]
    refine ⟨h1, h2.trans ?_⟩
    rw [ho, Option.or_assoc, List.findSome?_cons]
    cases cx.outcome? s r <;> rfl

theorem classInfo_resolveAll (cx : Context) (d : Draft) (rs : List Reference) :
    (d.resolveAll cx rs).symbol.classInfo = d.symbol.classInfo := by
  induction rs generalizing d with
  | nil => rfl
  | cons r rs ih => exact (ih _).trans (classInfo_resolve cx d r)

theorem classInfo_resolveFirst (cx : Context) (d : Draft) (rs : List Reference) :
    (d.resolveFirst cx rs).1.symbol.classInfo = d.symbol.classInfo := by
  unfold resolveFirst
  generalize (none : Option String) = o
  induction rs generalizing d o with
  | nil => rfl
  | cons r rs ih => exact (ih _ _).trans (classInfo_resolve cx d r)

end Bindery.Draft
