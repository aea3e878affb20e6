import Bindery.Proofs.Binding.Supplied

/-!
# One classification for each name

A name is classified by the first reference that looks it up. Where and how often it is referred to
besides makes no difference to what becomes of it.

* `Scope.lead?`, `Scope.text?`: what the tables of a scope say about a name.
* `Draft.decided?`, `Draft.decisions`: the references on which names are classified.
* **`Draft.resolve_of_decided?`**, **`Draft.resolve_of_undecided`**: what one reference does.
* `Context.Classifies`: what a bound symbol holds, classification by classification.
* **`Context.classifies_bind`**: every bound symbol holds that.
-/

namespace Bindery

/-! ## What a scope says -/

namespace Scope

variable (s : Scope) (n : String)

/-- The target of a name and where it comes from: a dotted name is its own target, any other has
that of the first table that holds it, or else itself. None for a name whose import waits. -/
def lead? : Option (String × Origin) :=
  if '.' ∈ n.toList then some (n, .ambient)
  else ((s.locals.get? n).map fun target => (target, Origin.sameUnit)).or
    (((s.imports.get? n).map fun i => (i.target, Origin.otherUnit i.source)).or
      (if n ∈ s.waiting.keys then none
        else some (n, if n ∈ s.packages.keys then .package else .ambient)))

/-- What is written for a name: nothing for a dotted one, else the target of the declaration that
it has or is imported from, nothing as long as an import waits, and else the text of a package
export. -/
def text? (accessor : String) : Option String :=
  if '.' ∈ n.toList then none
  else (s.locals.get? n).or (((s.imports.get? n).map ImportedName.target).or
    (if n ∈ s.waiting.keys then none
      else (s.packages.get? n).map fun uri => packageText accessor uri n))

theorem lead?_eq : s.lead? n = (s.meaning n).target? n := by
  unfold lead? meaning isQualified
  by_cases hq : '.' ∈ n.toList
  · simp [hq, Meaning.target?]
  · cases hl : s.locals.get? n <;> cases hi : s.imports.get? n <;>
      cases hw : s.waiting.get? n <;> cases hp : s.packages.get? n <;>
        simp [hq, ← Table.contains_iff, Table.contains, hw, hp, Meaning.target?]

theorem text?_eq (accessor : String) :
    s.text? n accessor = (s.meaning n).replacement? accessor n := by
  unfold text? meaning isQualified
  by_cases hq : '.' ∈ n.toList
  · simp [hq, Meaning.replacement?]
  · cases hl : s.locals.get? n <;> cases hi : s.imports.get? n <;>
      cases hw : s.waiting.get? n <;> cases hp : s.packages.get? n <;>
        simp [hq, ← Table.contains_iff, Table.contains, hw, Meaning.replacement?]

end Scope

/-! ## Decisions -/

namespace Draft

variable (cx : Context) (d : Draft)

/-- The reference on which a name is classified, if resolving `r` classifies one: the name may refer
to a declaration, is neither hidden nor ignored, and has not come up before. -/
def decided? (r : Reference) : Option Reference :=
  (r.tracked? cx d.symbol).filter fun t =>
    t.isOpen d.symbol && !d.symbol.loaded.contains t.name

/-- The references on which names are classified, when several are resolved in turn. -/
def decisions (d : Draft) : List Reference → List Reference
  | [] => []
  | r :: rs => (d.decided? cx r).toList ++ decisions (d.resolve cx r).1 rs

variable {cx d} {r t : Reference}

theorem decided?_eq_some_iff : d.decided? cx r = some t ↔ r.tracked? cx d.symbol = some t ∧
    t.isOpen d.symbol = true ∧ d.symbol.loaded.get? t.name = none := by
  rw [decided?, Option.filter_eq_some_iff, Bool.and_eq_true, Bool.not_eq_true', Table.contains,
    Option.isSome_eq_false_iff, Option.isNone_iff_eq_none]

theorem meet_locate : (d.locate t).meet cx t =
    if t.isOpen d.symbol then
      match d.symbol.loaded.get? t.name with
      | some target => ((d.locate t).fillReplacement t.name (cx.replacement? t.name), target)
      | none => (d.locate t).interpret cx t
    else (d.locate t, none) := by
  have ho : t.isOpen (d.locate t).symbol = t.isOpen d.symbol := by rw [locate_eq]; rfl
  have hl : (d.locate t).symbol.loaded = d.symbol.loaded := by rw [locate_eq]
  rw [← ho, ← hl]
  rfl

/-- **A reference that classifies its name** is interpreted. -/
theorem resolve_of_decided? (h : d.decided? cx r = some t) :
    d.resolve cx r = (d.locate t).interpret cx t := by
  obtain ⟨ht, ho, hnew⟩ := decided?_eq_some_iff.mp h
  rw [resolve_eq rfl, ht]
  show (d.locate t).meet cx t = _
  rw [meet_locate, if_pos ho, hnew]

theorem resolve_of_undecided (h : d.decided? cx r = none) :
    (d.resolve cx r).1 = { d with symbol.table := (d.resolve cx r).1.symbol.table } := by
  rw [decided?, Option.filter_eq_none_iff] at h
  rw [resolve_eq rfl]
  cases ht : r.tracked? cx d.symbol with
  | none => rfl
  | some t =>
    have hloc := d.locate_eq t
    show ((d.locate t).meet cx t).1 =
      { d with symbol.table := ((d.locate t).meet cx t).1.symbol.table }
    rw [meet_locate]
    cases ho : t.isOpen d.symbol with
    | false => exact hloc
    | true =>
      have hold : d.symbol.loaded.contains t.name = true := by simpa [ho] using h t ht
      obtain ⟨target, htarget⟩ := Option.isSome_iff_exists.mp hold
      rw [if_pos rfl, htarget]
      refine (fillReplacement_eq _ _ _).trans ?_
      rw [hloc]

/-- **What has been classified** on the way from `d` to `d'`: these references, in this order. -/
structure Gains (cx : Context) (d : Draft) (ts : List Reference) (d' : Draft) : Prop where
  qualified : d'.symbol.qualified = d.symbol.qualified
  loaded : d'.symbol.loaded.keys = d.symbol.loaded.keys ++ ts.map Reference.name
  edges : d'.symbol.edges = d.symbol.edges ++ ts.filterMap (cx.edge? d.symbol)
  deferred : d'.deferred = d.deferred ++ ts.filterMap cx.deferral?

theorem Gains.trans {d' d'' : Draft} {ts ts' : List Reference} (h : Gains cx d ts d')
    (h' : Gains cx d' ts' d'') : Gains cx d (ts ++ ts') d'' := by
  have he : cx.edge? d'.symbol = cx.edge? d.symbol := by
    funext t
    rw [Context.edge?, h.qualified, Context.edge?]
  refine ⟨h'.qualified.trans h.qualified, ?_, ?_, ?_⟩
  · rw [h'.loaded, h.loaded, List.map_append, List.append_assoc]
  · rw [h'.edges, h.edges, he, List.filterMap_append, List.append_assoc]
  · rw [h'.deferred, h.deferred, List.filterMap_append, List.append_assoc]

theorem gains_resolve (cx : Context) (d : Draft) (r : Reference) :
    Gains cx d (d.decided? cx r).toList (d.resolve cx r).1 := by
  cases h : d.decided? cx r with
  | none =>
    rw [resolve_of_undecided h]
    exact ⟨rfl, by simp, by simp, by simp⟩
  | some t =>
    have hloc := d.locate_eq t
    have hnew : t.name ∉ (d.locate t).symbol.loaded.keys := by
      rw [hloc]
      exact Table.get?_eq_none_iff.mp (decided?_eq_some_iff.mp h).2.2
    have he : cx.edge? (d.locate t).symbol t = cx.edge? d.symbol t := by
      rw [hloc]
      rfl
    rw [resolve_of_decided? h, interpret_eq, Option.toList_some, he]
    refine ⟨?_, ?_, ?_, ?_⟩
    · rw [hloc]
    · rw [Table.keys_insert, if_neg hnew, hloc]
      rfl
    · rw [hloc]
      cases hx : cx.edge? d.symbol t <;> simp [hx]
    · rw [hloc]
      cases hx : cx.deferral? t <;> simp [hx]

theorem gains_resolveAll (cx : Context) (d : Draft) (rs : List Reference) :
    Gains cx d (d.decisions cx rs) (d.resolveAll cx rs) := by
  induction rs generalizing d with
  | nil => exact ⟨rfl, by simp [decisions, resolveAll], by simp [decisions, resolveAll],
      by simp [decisions, resolveAll]⟩
  | cons r rs ih => exact (gains_resolve cx d r).trans (ih _)

end Draft

/-! ## Bound symbols -/

/-- Symbols with the same declaration and references differ in the data of a class only. -/
theorem Symbol.eq_of_bare {x y : Symbol} (h : x.bare = y.bare) (ht : x.table = y.table)
    (he : x.edges = y.edges) (hl : x.loaded = y.loaded) :
    x = { y with classInfo := x.classInfo } :=
  (rest_of_bare h).trans (by rw [ht, he, hl])

namespace Draft.Reflects

variable {cx : Context} {s : Symbol} {rs : List Reference} {d d' : Draft}

/-- What a draft holds is determined by its references, the data of a class apart. -/
theorem ext (h : d.Reflects cx s rs) (h' : d'.Reflects cx s rs) :
    d = ⟨{ d'.symbol with classInfo := d.symbol.classInfo }, d'.deferred⟩ := by
  have hl : d.symbol.loaded.entries = d'.symbol.loaded.entries := h.loaded.trans h'.loaded.symm
  have hloaded : d.symbol.loaded = d'.symbol.loaded := by
    generalize d.symbol.loaded = l at hl
    generalize d'.symbol.loaded = l' at hl
    cases l
    cases l'
    cases hl
    rfl
  have hs := Symbol.eq_of_bare (h.bare.trans h'.bare.symm)
    (Table.ext_get? (h.placed.trans h'.placed.symm) fun n =>
      (h.mentions n).trans (h'.mentions n).symm)
    (h.edges.trans h'.edges.symm) hloaded
  have hd : d.deferred = d'.deferred := h.deferred.trans h'.deferred.symm
  rw [← hs, ← hd]

end Draft.Reflects

namespace Context

/-- **What the symbol `s` holds once it is bound**, classification by classification. -/
structure Classifies (cx : Context) (s : Symbol) (rs : List Reference) (b : Bound) : Prop where
  /-- Its references are resolved one after the other. -/
  run : ∃ info, Draft.resolveAll cx { symbol := s } rs =
    ⟨{ b.symbol with classInfo := info }, b.deferred⟩
  /-- No name is classified twice. -/
  once : ((Draft.decisions cx { symbol := s } rs).map Reference.name).Nodup
  /-- A name is classified if some reference looks it up. -/
  classified : ∀ n, n ∈ (Draft.decisions cx { symbol := s } rs).map Reference.name ↔
    ∃ t ∈ cx.tracked s rs, t.name = n ∧ n ∉ t.hidden ∧ n ∉ s.ignored
  /-- There is one dependency for each classified name that leads to another declaration. -/
  edges : b.symbol.edges = (Draft.decisions cx { symbol := s } rs).filterMap fun t =>
    (cx.scope.lead? t.name).bind fun (target, origin) =>
      if target = b.symbol.qualified then none else some ⟨target, origin, t.strong⟩
  /-- Every classified name that waits is deferred once. -/
  deferred : b.deferred = ((Draft.decisions cx { symbol := s } rs).filter fun t =>
    cx.scope.lead? t.name = none).map fun t => ⟨t.name, t.strong, t.location?.isSome⟩
  /-- Nothing is written for a name that is not classified. -/
  unwritten : ∀ n, n ∉ (Draft.decisions cx { symbol := s } rs).map Reference.name →
    ∀ m, b.symbol.mentions? n = some m → m.replacement = none
  /-- A classified name is written as the scope says, if one reference that is not hidden has a
  place. -/
  written : ∀ t ∈ cx.tracked s rs, t.name ∉ t.hidden → t.location?.isSome = true →
    t.name ∈ (Draft.decisions cx { symbol := s } rs).map Reference.name →
    ∃ m, b.symbol.mentions? t.name = some m ∧
      m.replacement = cx.scope.text? t.name cx.options.packageAccessor

variable {cx : Context} {s : Symbol} {rs : List Reference} {b : Bound}

theorem isWritten_of_mem_opened {t : Reference} (ht : t ∈ cx.opened s rs)
    (hl : t.location?.isSome = true) : cx.isWritten s rs t.name = true := by
  obtain ⟨ht, ho⟩ := List.mem_filter.mp ht
  obtain ⟨before, after, he⟩ := List.append_of_mem ht
  rw [isWritten, he, List.dropWhile_append, List.any_eq_true]
  refine ⟨t, ?_, by simp [ho]⟩
  split_ifs
  · rw [List.dropWhile_cons_of_neg (by simp [Reference.isPlaceOf, hl])]
    exact List.mem_cons_self
  · exact List.mem_append_right _ List.mem_cons_self

theorem IsBoundAs.classifies (h : cx.IsBoundAs (s, rs) b)
    (hs : ({ symbol := s } : Draft).Reflects cx s []) : cx.Classifies s rs b := by
  have hrun := (hs.resolveAll rs).ext h
  have hgain := Draft.gains_resolveAll cx { symbol := s } rs
  have hq : b.symbol.qualified = s.qualified := Symbol.qualified_of_bare h.bare
  have hnames : (Draft.decisions cx { symbol := s } rs).map Reference.name =
      (cx.met s rs).map Reference.name := by
    have hkeys := hgain.loaded
    rw [hrun, show s.loaded.keys = [] from congrArg (List.map Prod.fst) hs.loaded] at hkeys
    rw [← List.nil_append (List.map _ _), ← hkeys, Table.keys, h.loaded, List.map_map]
    rfl
  refine
    { run := ⟨_, hrun⟩
      once := ?once
      classified := fun n => ?classified
      edges := ?edges
      deferred := ?deferred
      unwritten := fun n hn m hm => ?unwritten
      written := fun t ht hh hl hn => ?written }
  case once =>
    rw [hnames]
    exact nodup_map_name_met cx s rs
  case classified =>
    rw [hnames, met, Reference.mem_map_name_firsts, List.mem_map]
    simp only [opened, List.mem_filter, Reference.isOpen_iff]
    constructor
    · rintro ⟨t, ⟨ht, ho⟩, rfl⟩
      exact ⟨t, ht, rfl, ho⟩
    · rintro ⟨t, ht, rfl, ho⟩
      exact ⟨t, ⟨ht, ho⟩, rfl⟩
  case edges =>
    have he := hgain.edges
    rw [hrun, show s.edges = [] from hs.edges, List.nil_append] at he
    rw [show b.symbol.edges = _ from he, hq]
    refine List.filterMap_congr fun t _ => ?_
    rw [edge?, Scope.lead?_eq]
  case deferred =>
    have hd := hgain.deferred
    rw [hrun, List.nil_append] at hd
    rw [show b.deferred = _ from hd, ← List.filterMap_eq_map, List.filterMap_filter]
    refine List.filterMap_congr fun t _ => ?_
    rw [deferral?, target?, Scope.lead?_eq]
    cases (cx.scope.meaning t.name).target? t.name <;> rfl
  case unwritten =>
    rw [hnames] at hn
    rw [show b.symbol.mentions? n = _ from h.mentions n, mentions?] at hm
    split_ifs at hm with _ hw
    · exact absurd (mem_met_of_isWritten hw) hn
    · cases hm
      rfl
  case written =>
    rw [hnames, met, Reference.mem_map_name_firsts, List.mem_map] at hn
    obtain ⟨t', ht', hname⟩ := hn
    have hi : t.name ∉ s.ignored := hname ▸ (Reference.isOpen_iff.mp (List.mem_filter.mp ht').2).2
    have hopen : t ∈ cx.opened s rs := List.mem_filter.mpr ⟨ht, Reference.isOpen_iff.mpr ⟨hh, hi⟩⟩
    refine ⟨_, (h.mentions t.name).trans ((if_neg (placesOf_ne_nil ht hl)).trans rfl), ?_⟩
    rw [if_pos (isWritten_of_mem_opened hopen hl), Scope.text?_eq]
    rfl

/-- **One classification for each name**, in every symbol that a statement declares. -/
theorem classifies_bind (cx : Context) (statement : Slot) :
    List.Forall₂ (fun d b => cx.Classifies d.1 d.2 b) (cx.declarations statement)
      (cx.bind statement).1 := by
  have hb := cx.forall₂_bind statement
  have hd : ∀ d ∈ cx.declarations statement, ({ symbol := d.1 } : Draft).Reflects cx d.1 [] := by
    intro d hd
    obtain ⟨_, _, _, _, s, hs, he⟩ := newSymbol?_of_mem_declarations hd
    rw [he]
    exact reflects_newSymbol? hs _
  refine ((List.forall₂_and_left _ _).mpr ⟨hd, hb⟩).imp ?_
  rintro ⟨s, rs⟩ b ⟨hs, hb⟩
  exact hb.classifies hs

end Context

end Bindery
