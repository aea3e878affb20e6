import Bindery.Proofs.Binding.Heritage
import Bindery.Proofs.Binding.Supplied
import Bindery.Proofs.Symbol.Late

/-!
# Bases that are imported

A class is bound where an import waits, and where the import is known. What its clauses lead to
differs in the types that lead to the import.

* `Context.awaitedBase?`: the short name that a class waits for.
* `Context.inherits_bindClass`: the bases of a class, and what it waits for.
* `Context.Leads`: a type that leads to an import as soon as it is known.
* `Context.Covers`: what an import adds to the targets of some types is there without it.
* `Context.Kin`: the bases of the one class and of the other.
* **`Context.Supplied.kin`**: the same declaration leads to such a pair.
* **`Context.Kin.learn`**: other late imports keep it.
* `Context.EndsBases`, **`Context.Kin.ends`**: when the two are alike in the end.
-/

namespace Bindery.Context

open Draft

variable {cx cx' : Context} {s t : Symbol} {hidden : List String} {xs : List Inherited}

/-! ## Classes of a unit -/

theorem mem_gather {results : List (Option (Bound × List Diagnostic))} {b : Bound} :
    b ∈ (gather results).1 ↔ ∃ ds, some (b, ds) ∈ results := by
  rw [gather, List.mem_map]
  constructor
  · rintro ⟨⟨b, ds⟩, hb, rfl⟩
    obtain ⟨_, hb, rfl⟩ := List.mem_filterMap.mp hb
    exact ⟨ds, hb⟩
  · rintro ⟨ds, hb⟩
    exact ⟨(b, ds), List.mem_filterMap.mpr ⟨_, hb, rfl⟩, rfl⟩

theorem classInfo_bindPlain {kind : SymbolKind} {i : Nat} {name : Slot} {header : Header}
    {b : Bound} {ds : List Diagnostic} (h : cx.bindPlain kind i name header = some (b, ds)) :
    b.symbol.classInfo = none := by
  obtain ⟨s, hs, hb⟩ := Option.map_eq_some_iff.mp h
  have hsym := congrArg (fun result => result.1.symbol.classInfo) hb
  refine hsym.symm.trans ((classInfo_resolveAll _ _ _).trans ?_)
  obtain ⟨_, _, _, _, rfl⟩ := exists_of_newSymbol? hs
  rfl

theorem class_of_mem_bind {statement : Slot} {b : Bound} (hb : b ∈ (cx.bind statement).1)
    (hc : b.symbol.isClassOrInterface = true) : ∃ kind i parts ds,
      cx.tree.form? statement = some (.classLike kind parts) ∧
        cx.bindClass kind i parts = some (b, ds) := by
  have plain : ∀ {kind i name header ds}, cx.bindPlain kind i name header ≠ some (b, ds) :=
    fun h => by rw [Symbol.isClassOrInterface, classInfo_bindPlain h] at hc; cases hc
  unfold bind at hb
  split at hb
  · rename_i i form hform
    split at hb
    · obtain ⟨ds, hb⟩ := mem_gather.mp hb
      exact ⟨_, i, _, ds, hform, (List.mem_singleton.mp hb).symm⟩
    · obtain ⟨ds, hb⟩ := mem_gather.mp hb
      exact absurd (List.mem_singleton.mp hb).symm plain
    · obtain ⟨ds, hb⟩ := mem_gather.mp hb
      exact absurd (List.mem_singleton.mp hb).symm plain
    · obtain ⟨ds, hb⟩ := mem_gather.mp hb
      exact absurd (List.mem_singleton.mp hb).symm plain
    · obtain ⟨ds, hb⟩ := mem_gather.mp hb
      obtain ⟨d, -, hd⟩ := List.mem_map.mp hb
      simp only [bindVariable, Option.bind_eq_bind, Option.bind_eq_some_iff] at hd
      obtain ⟨_, _, _, _, hd⟩ := hd
      exact absurd hd plain
    · cases hb
  · cases hb

theorem isBoundAs_bindClass {kind : ClassKind} {i : Nat} {parts : ClassParts} {b : Bound}
    {ds : List Diagnostic} (h : cx.bindClass kind i parts = some (b, ds)) :
    ∃ s, cx.IsBoundAs (s, cx.classReferences i parts) b := by
  have hrel := cx.rel_bindClass kind i parts
  rw [h] at hrel
  obtain ⟨p, hp, hb⟩ : ∃ p, cx.declareClass kind i parts = some p ∧ cx.IsBoundAs p b := by
    generalize cx.declareClass kind i parts = o at hrel
    cases hrel with
    | some hb => exact ⟨_, rfl, hb⟩
  obtain ⟨s, -, rfl⟩ := Option.map_eq_some_iff.mp hp
  exact ⟨_, hb⟩

/-- The name that a class waits for: that of its base, if the base has no target and an import of
that name waits. -/
def awaitedBase? (cx : Context) (s : Symbol) (hidden : List String) (xs : List Inherited) :
    Option String :=
  (shapesOf .extending xs).head?.bind fun x => (x.word?.map TypeWord.value).filter fun n =>
    (cx.heritageTarget? s hidden x).isNone && cx.scope.waiting.contains n

theorem Reads.awaitedBase (hs : cx.scope.isLibrary = false) {l : Lineage}
    (h : cx.Reads s hidden xs l) (x : Inherited) {c c' : ClassInfo}
    (hc : l.draft.symbol.classInfo = some c)
    (ha : c.awaitedBase = cx.awaitedBase? s hidden xs)
    (hc' : (cx.inheritShape hidden l x).draft.symbol.classInfo = some c') :
    c'.awaitedBase = cx.awaitedBase? s hidden (xs ++ [x]) := by
  obtain ⟨c₁, hc₁, ⟨hx, hxs, _, rfl⟩ | ⟨hx, hxs, rfl⟩ | ⟨hx, rfl⟩⟩ := h.cases hs x hc
  all_goals
    rw [hc', Option.some.injEq] at hc₁
    subst hc₁
    rw [awaitedBase?]
  · rw [shapesOf_append_of_eq hx, hxs]
    rfl
  · rw [shapesOf_append_of_eq hx, List.head?_append_of_ne_nil _ hxs]
    exact ha
  · rw [shapesOf_append_of_ne (by rw [hx]; decide)]
    exact ha

theorem awaitedBase?_of_bare (hb : s.bare = t.bare) (hidden : List String) (xs : List Inherited) :
    cx.awaitedBase? s hidden xs = cx.awaitedBase? t hidden xs := by
  rw [awaitedBase?, heritageTarget?_of_bare hb, awaitedBase?]

theorem opened_of_bare (h : s.bare = t.bare) (rs : List Reference) :
    cx.opened s rs = cx.opened t rs := by
  have ht : Reference.tracked? cx s = Reference.tracked? cx t := by
    funext r
    rw [Reference.tracked?, Symbol.qualified_of_bare h, Reference.tracked?]
  have ho : Reference.isOpen s = Reference.isOpen t := by
    funext r
    rw [Reference.isOpen, Symbol.ignored_of_bare h, Reference.isOpen]
  rw [opened, tracked, ht, ho, opened, tracked]

/-- **The data of a class** tells the bases that its clauses lead to, and what it waits for. -/
theorem inherits_bindClass (hs : cx.scope.isLibrary = false) {kind : ClassKind} {i : Nat}
    {parts : ClassParts} {b : Bound} {ds : List Diagnostic}
    (h : cx.bindClass kind i parts = some (b, ds)) :
    ∃ c, b.symbol.classInfo = some c ∧ cx.Inherits b.symbol (cx.parameterNames parts.typeParameters)
        (parts.heritage.flatMap cx.inherited) c ∧
      c.awaitedBase = cx.awaitedBase? b.symbol (cx.parameterNames parts.typeParameters)
        (parts.heritage.flatMap cx.inherited) := by
  obtain ⟨s, hn, hb⟩ := Option.map_eq_some_iff.mp h
  set hidden := cx.parameterNames parts.typeParameters
  set data := cx.newClassInfo kind i hidden s
  set s₀ : Symbol := { s with classInfo := some data }
  obtain ⟨⟨⟨rs, hr⟩, -, c, hc, hi⟩, ha⟩ :
      cx.Reads s₀ hidden (parts.heritage.flatMap cx.inherited)
          (cx.inherit hidden s₀ parts.heritage) ∧
        ∀ c, (cx.inherit hidden s₀ parts.heritage).draft.symbol.classInfo = some c →
          c.awaitedBase = cx.awaitedBase? s₀ hidden (parts.heritage.flatMap cx.inherited) := by
    refine inherit_induction (P := fun xs l => cx.Reads s₀ hidden xs l ∧
      ∀ c, l.draft.symbol.classInfo = some c → c.awaitedBase = cx.awaitedBase? s₀ hidden xs)
      ⟨?_, fun c hc => ?_⟩ (fun xs l x hl => ⟨hl.1.inheritShape hs x, fun c' hc' => ?_⟩) _
    · exact ⟨⟨[], reflects_newSymbol? hn (some data)⟩, rfl, data, rfl, rfl, by split_ifs <;> rfl, rfl⟩
    · cases hc
      rfl
    · obtain ⟨c, hc, -⟩ := hl.1.info
      exact hl.1.awaitedBase hs x hc (hl.2 c hc) hc'
  have hsym := (congrArg (fun result => result.1.symbol) hb).symm
  have hclass : b.symbol.classInfo = some (cx.recordMembers c (cx.memberNodes i parts)).1 := by
    refine (congrArg Symbol.classInfo hsym).trans ((classInfo_resolveAll _ _ _).trans ?_)
    rw [hc]
    rfl
  have hbare : b.symbol.bare = s₀.bare := by
    rw [hsym]
    exact ((hr.setClass rfl _).resolveAll _).bare
  have hmembers : memberless (cx.recordMembers c _).1 = memberless c :=
    memberless_recordMembers c (cx.memberNodes i parts)
  refine ⟨_, hclass, (hi.of_sameBases (sameBases_recordMembers c _)).of_bare hbare.symm, ?_⟩
  rw [awaitedBase?_of_bare hbare, ← ha c hc]
  exact (congrArg ClassInfo.awaitedBase hmembers :)

/-! ## Types that lead to an import -/

/-- The import `name` waits, and a reference to it comes before all that have a target. -/
def Reaches (cx : Context) (name : String) (rs : List Reference) : Prop :=
  cx.target? name = none ∧ ∃ before r after, rs = before ++ r :: after ∧ r.name = name ∧
    ∀ t ∈ before, cx.target? t.name = none

theorem reaches_cons {name : String} {r : Reference} {rs : List Reference} :
    cx.Reaches name (r :: rs) ↔ if r.name = name then cx.target? name = none
      else cx.target? r.name = none ∧ cx.Reaches name rs := by
  split_ifs with hr
  · exact ⟨And.left, fun hn => ⟨hn, [], r, rs, rfl, hr, nofun⟩⟩
  · constructor
    · rintro ⟨hn, before, r', after, he, hr', hb⟩
      rcases List.cons_eq_append_iff.mp he with ⟨rfl, he⟩ | ⟨before, rfl, rfl⟩
      · cases he
        exact absurd hr' hr
      · rw [List.forall_mem_cons] at hb
        exact ⟨hb.1, hn, before, r', after, rfl, hr', hb.2⟩
    · rintro ⟨ht, hn, before, r', after, rfl, hr', hb⟩
      exact ⟨hn, r :: before, r', after, rfl, hr', List.forall_mem_cons.mpr ⟨ht, hb⟩⟩

/-- **A type leads to an import that waits**: its target is the import as soon as that is known. -/
def Leads (cx : Context) (s : Symbol) (hidden : List String) (name : String) (x : TypeShape) :
    Prop :=
  cx.Reaches name (cx.opened s (cx.shapeReferences hidden x))

/-- A type has the name of an import, and no target. -/
def Awaits (cx : Context) (s : Symbol) (hidden : List String) (name : String) (x : TypeShape) :
    Prop :=
  x.word?.map TypeWord.value = some name ∧ cx.heritageTarget? s hidden x = none

theorem leads_of_bare (hb : s.bare = t.bare) (hidden : List String) (name : String) :
    cx.Leads s hidden name = cx.Leads t hidden name := by
  funext x
  rw [Leads, opened_of_bare hb, Leads]

theorem awaits_of_bare (hb : s.bare = t.bare) (hidden : List String) (name : String) :
    cx.Awaits s hidden name = cx.Awaits t hidden name := by
  funext x
  rw [Awaits, heritageTarget?_of_bare hb, Awaits]

theorem heritageTarget?_eq (x : TypeShape) : cx.heritageTarget? s hidden x =
    (cx.opened s (cx.shapeReferences hidden x)).findSome? fun r => cx.target? r.name := by
  rw [heritageTarget?, opened, tracked]
  induction cx.shapeReferences hidden x with
  | nil => rfl
  | cons r rs ih =>
    rw [List.findSome?_cons, ih, outcome?]
    cases hr : r.tracked? cx s with
    | none => rw [List.filterMap_cons_none hr]; rfl
    | some t =>
      rw [List.filterMap_cons_some hr, Option.bind_some]
      by_cases ho : t.isOpen s = true
      · rw [if_pos ho, List.filter_cons_of_pos ho, List.findSome?_cons]
      · rw [if_neg ho, List.filter_cons_of_neg ho]

section Supplied

variable {name target source : String} (h : cx.Supplied name target source cx')

include h

theorem Supplied.target?_of_eq_none (hn : cx.target? name = none) :
    cx'.target? name = some target := by
  rcases h.name with ⟨-, hw⟩ | ⟨-, hi⟩
  · obtain ⟨src, hs⟩ := (cx.target?_eq_none_iff name).mp hn
    exact absurd hs (hw src)
  · rw [target?, hi]
    rfl

theorem Supplied.target?_of_ne_none (hn : cx.target? name ≠ none) (n : String) :
    cx'.target? n = cx.target? n := by
  by_cases hne : n = name
  · rcases h.name with ⟨he, -⟩ | ⟨hw, -⟩
    · rw [hne, target?, ← he, target?]
    · exact absurd ((cx.target?_eq_none_iff name).mpr ⟨source, hw⟩) hn
  · exact (h.target?_of_ne hne).symm

theorem Supplied.findSome?_of_reaches {rs : List Reference} (hr : cx.Reaches name rs) :
    rs.findSome? (fun r => cx'.target? r.name) = some target := by
  induction rs with
  | nil =>
    obtain ⟨-, before, _, _, he, -⟩ := hr
    exact absurd he (by simp)
  | cons r rs ih =>
    rw [reaches_cons] at hr
    rw [List.findSome?_cons]
    split_ifs at hr with hn
    · rw [hn, h.target?_of_eq_none hr]
    · rw [← h.target?_of_ne hn, hr.1]
      exact ih hr.2

theorem Supplied.findSome?_of_not_reaches {rs : List Reference} (hr : ¬cx.Reaches name rs) :
    rs.findSome? (fun r => cx'.target? r.name) = rs.findSome? fun r => cx.target? r.name := by
  induction rs with
  | nil => rfl
  | cons r rs ih =>
    rw [reaches_cons] at hr
    rw [List.findSome?_cons, List.findSome?_cons]
    split_ifs at hr with hn
    · rw [h.target?_of_ne_none hr, hn]
      obtain ⟨t, ht⟩ := Option.ne_none_iff_exists'.mp hr
      rw [ht]
    · rw [← h.target?_of_ne hn]
      cases ht : cx.target? r.name with
      | some t => rfl
      | none => exact ih fun hrs => hr ⟨ht, hrs⟩

variable (ha : cx.Alike cx')

include ha

theorem Supplied.opened_shapeReferences (s : Symbol) (hidden : List String) (x : TypeShape) :
    cx'.opened s (cx'.shapeReferences hidden x) = cx.opened s (cx.shapeReferences hidden x) := by
  rw [opened, opened, tracked_congr h.isBuiltin, shapeReferences, shapeReferences, ha.isLibrary]

/-- **Where the import is known** it is the target of the types that lead to it. -/
theorem Supplied.heritageTarget?_of_leads {x : TypeShape} (hx : cx.Leads s hidden name x) :
    cx'.heritageTarget? s hidden x = some target := by
  rw [heritageTarget?_eq, h.opened_shapeReferences ha]
  exact h.findSome?_of_reaches hx

theorem Supplied.heritageTarget?_of_not_leads {x : TypeShape} (hx : ¬cx.Leads s hidden name x) :
    cx'.heritageTarget? s hidden x = cx.heritageTarget? s hidden x := by
  rw [heritageTarget?_eq, heritageTarget?_eq, h.opened_shapeReferences ha]
  exact h.findSome?_of_not_reaches hx

end Supplied

/-! ## What types add up to -/

/-- **The targets of some types**: `r` where the import `name` waits, and `r'` where it is known to
mean `target`. -/
structure Gathers (cx : Context) (s : Symbol) (hidden : List String) (name target : String)
    (xs : List TypeShape) (r r' : Roster String) : Prop where
  waiting : ∀ t, t ∈ r ↔ ∃ x ∈ xs, cx.heritageTarget? s hidden x = some t
  known : ∀ t, t ∈ r' ↔ ∃ x ∈ xs, cx.Leads s hidden name x ∧ t = target ∨
    ¬cx.Leads s hidden name x ∧ cx.heritageTarget? s hidden x = some t

/-- **What the import adds to the targets of some types is there without it**, and so is what it
takes away: for each type that leads to it there is a type that leads to `target` anyway, and the
target that the type has without it is `target` or comes from another type. -/
def Covers (cx : Context) (s : Symbol) (hidden : List String) (name target : String)
    (xs : List TypeShape) : Prop :=
  ∀ x ∈ xs, cx.Leads s hidden name x → (∃ y ∈ xs, cx.heritageTarget? s hidden y = some target) ∧
    ∀ t, cx.heritageTarget? s hidden x = some t → t = target ∨
      ∃ y ∈ xs, ¬cx.Leads s hidden name y ∧ cx.heritageTarget? s hidden y = some t

section Gathers

variable {name target source : String} {xs : List TypeShape} {r r' : Roster String}

theorem Supplied.gathers (h : cx.Supplied name target source cx') (ha : cx.Alike cx')
    (s : Symbol) (hidden : List String) (xs : List TypeShape) :
    cx.Gathers s hidden name target xs
      (.ofList (xs.filterMap (cx.heritageTarget? s hidden)))
      (.ofList (xs.filterMap (cx'.heritageTarget? s hidden))) := by
  refine ⟨fun t => by rw [Roster.mem_ofList, List.mem_filterMap], fun t => ?_⟩
  rw [Roster.mem_ofList, List.mem_filterMap]
  refine exists_congr fun x => and_congr_right fun _ => ?_
  by_cases hx : cx.Leads s hidden name x
  · simp [h.heritageTarget?_of_leads ha hx, hx, eq_comm]
  · simp [h.heritageTarget?_of_not_leads ha hx, hx]

/-- **When the same targets are gathered.** -/
theorem Gathers.same_iff (h : cx.Gathers s hidden name target xs r r') :
    (∀ t, t ∈ r ↔ t ∈ r') ↔ cx.Covers s hidden name target xs := by
  constructor
  · intro hsame x hx hl
    have htarget : target ∈ r := (hsame target).mpr ((h.known target).mpr ⟨x, hx, .inl ⟨hl, rfl⟩⟩)
    refine ⟨(h.waiting target).mp htarget, fun t ht => ?_⟩
    obtain ⟨y, hy, ⟨-, rfl⟩ | hyt⟩ := (h.known t).mp
      ((hsame t).mp ((h.waiting t).mpr ⟨x, hx, ht⟩))
    · exact .inl rfl
    · exact .inr ⟨y, hy, hyt⟩
  · intro hc t
    rw [h.waiting, h.known]
    constructor
    · rintro ⟨x, hx, ht⟩
      by_cases hl : cx.Leads s hidden name x
      · rcases (hc x hx hl).2 t ht with rfl | ⟨y, hy, hyt⟩
        · exact ⟨x, hx, .inl ⟨hl, rfl⟩⟩
        · exact ⟨y, hy, .inr hyt⟩
      · exact ⟨x, hx, .inr ⟨hl, ht⟩⟩
    · rintro ⟨x, hx, ⟨hl, rfl⟩ | ⟨-, ht⟩⟩
      · exact (hc x hx hl).1
      · exact ⟨x, hx, ht⟩

theorem Gathers.of_bare (h : cx.Gathers s hidden name target xs r r') (hb : s.bare = t.bare) :
    cx.Gathers t hidden name target xs r r' := by
  obtain ⟨hw, hk⟩ := h
  rw [heritageTarget?_of_bare hb] at hw hk
  rw [leads_of_bare hb] at hk
  exact ⟨hw, hk⟩

end Gathers

/-! ## Two classes -/

/-- **The bases of a class with these clauses**: `c` where the import `name` waits, and `c'` where
it is known to mean `target`. -/
structure Kin (cx : Context) (s : Symbol) (hidden : List String) (xs : List Inherited)
    (name target : String) (c c' : ClassInfo) : Prop where
  awaits : c.awaitedBase = some name ↔
    ∃ x ∈ (shapesOf .extending xs).head?, cx.Awaits s hidden name x
  /-- The first type that is extended leads to the import. -/
  gains : ∀ x ∈ (shapesOf .extending xs).head?, cx.Leads s hidden name x →
    c'.base = some target ∧ c'.awaitedBase = none
  keeps : (∀ x ∈ (shapesOf .extending xs).head?, ¬cx.Leads s hidden name x) →
    c'.base = c.base ∧ c'.awaitedBase = c.awaitedBase.filter (· ≠ name)
  extraBases : cx.Gathers s hidden name target
    (if s.kind = .interfaceSymbol then (shapesOf .extending xs).tail else [])
    c.extraBases c'.extraBases
  interfaces : cx.Gathers s hidden name target (shapesOf .implementing xs)
    c.interfaces c'.interfaces

section Kin

variable {name target source : String} {c c' : ClassInfo}

theorem Inherits.gathers_extraBases (hi : cx.Inherits s hidden xs c)
    (hi' : cx'.Inherits s hidden xs c') (h : cx.Supplied name target source cx')
    (ha : cx.Alike cx') : cx.Gathers s hidden name target
      (if s.kind = .interfaceSymbol then (shapesOf .extending xs).tail else [])
      c.extraBases c'.extraBases := by
  rw [hi.extraBases, hi'.extraBases]
  split_ifs
  · exact h.gathers ha s hidden _
  · exact h.gathers ha s hidden []

theorem Supplied.kin (h : cx.Supplied name target source cx') (ha : cx.Alike cx')
    (hw : cx.scope.waiting.contains name = true)
    (hw' : cx'.scope.waiting = cx.scope.waiting.erase name) (hi : cx.Inherits s hidden xs c)
    (hi' : cx'.Inherits s hidden xs c') (hc : c.awaitedBase = cx.awaitedBase? s hidden xs)
    (hc' : c'.awaitedBase = cx'.awaitedBase? s hidden xs) :
    cx.Kin s hidden xs name target c c' := by
  refine ⟨?_, fun x hx hl => ?_, fun hl => ?_, hi.gathers_extraBases hi' h ha, ?_⟩
  · rw [hc, awaitedBase?, Option.bind_eq_some_iff]
    refine exists_congr fun x => and_congr_right fun _ => ?_
    rw [Option.filter_eq_some_iff, hw, Bool.and_true, Option.isNone_iff_eq_none, Awaits]
  · rw [hi'.base, hc', awaitedBase?, hx, Option.bind_some, Option.bind_some,
      h.heritageTarget?_of_leads ha hl]
    exact ⟨rfl, by simp⟩
  · rw [hi.base, hi'.base, hc, hc', awaitedBase?, awaitedBase?]
    cases hx : (shapesOf .extending xs).head? with
    | none => exact ⟨rfl, rfl⟩
    | some x =>
      rw [Option.bind_some, Option.bind_some, Option.bind_some, Option.bind_some,
        h.heritageTarget?_of_not_leads ha (hl x hx), hw', Option.filter_filter]
      refine ⟨rfl, ?_⟩
      congr 1
      funext n
      rw [Table.contains, Table.contains, Table.get?_erase]
      by_cases hn : n = name <;> simp [hn]
  · rw [hi.interfaces, hi'.interfaces]
    exact h.gathers ha s hidden _

theorem Kin.of_bare (h : cx.Kin s hidden xs name target c c') (hb : s.bare = t.bare) :
    cx.Kin t hidden xs name target c c' := by
  have hk : s.kind = t.kind := (congrArg Symbol.kind hb :)
  obtain ⟨hw, hg, hs, he, hi⟩ := h
  rw [awaits_of_bare hb] at hw
  rw [leads_of_bare hb] at hg hs
  rw [hk] at he
  exact ⟨hw, hg, hs, he.of_bare hb, hi.of_bare hb⟩

theorem Kin.learn (h : cx.Kin s hidden xs name target c c') {l : LateImport} (hl : l.name ≠ name) :
    cx.Kin s hidden xs name target (c.learn l) (c'.learn l) := by
  obtain ⟨hb, ha, he, hi⟩ := Symbol.bases_learn l c
  obtain ⟨hb', ha', he', hi'⟩ := Symbol.bases_learn l c'
  refine ⟨?_, fun x hx hx' => ?_, fun hx => ?_, ?_, ?_⟩
  · rw [ha, ← h.awaits]
    split_ifs with hc
    · rw [hc, Option.some.injEq]
      exact iff_of_false nofun hl
    · rfl
  · obtain ⟨hbase, hnone⟩ := h.gains x hx hx'
    rw [hb', ha', hnone, if_neg nofun, if_neg nofun]
    exact ⟨hbase, rfl⟩
  · obtain ⟨hbase, hawait⟩ := h.keeps hx
    have hiff : c'.awaitedBase = some l.name ↔ c.awaitedBase = some l.name := by
      rw [hawait, Option.filter_eq_some_iff, decide_eq_true_iff]
      exact and_iff_left hl
    rw [hb, hb', ha, ha', if_congr hiff rfl hbase, if_congr hiff rfl hawait]
    split_ifs
    · exact ⟨rfl, rfl⟩
    · exact ⟨rfl, rfl⟩
  · rw [he, he']
    exact h.extraBases
  · rw [hi, hi']
    exact h.interfaces

/-! ### The import is found -/

/-- **How the bases of the class `s` end up**: `a` is what it inherits before its import `name` is
found to mean `target`, and `b` afterwards; `c` is what it inherits with the import known from the
start. -/
structure EndsBases (cx : Context) (s : Symbol) (hidden : List String) (xs : List Inherited)
    (name target : String) (a b c : ClassInfo) : Prop where
  /-- The same base. -/
  base : b.base = c.base ↔ a.base = some target ∨ ∀ x ∈ (shapesOf .extending xs).head?,
    (cx.Leads s hidden name x ↔ cx.Awaits s hidden name x ∧ s.loaded.get? name = some none)
  /-- The same further bases, in any order. -/
  extraBases : (∀ t, t ∈ b.extraBases ↔ t ∈ c.extraBases) ↔
    (s.kind = .interfaceSymbol → cx.Covers s hidden name target (shapesOf .extending xs).tail)
  /-- The same interfaces, in any order. -/
  interfaces : (∀ t, t ∈ b.interfaces ↔ t ∈ c.interfaces) ↔
    cx.Covers s hidden name target (shapesOf .implementing xs)

/-- A base is found late if the class has waited for it, and nothing else of a class. -/
theorem Kin.ends {a b c : ClassInfo} (h : cx.Kin s hidden xs name target a c) {waits : Prop}
    [Decidable waits] (hw : waits ↔ s.loaded.get? name = some none)
    (hb : b.base = if a.awaitedBase = some name ∧ waits then some target else a.base)
    (he : b.extraBases = a.extraBases) (hi : b.interfaces = a.interfaces) :
    cx.EndsBases s hidden xs name target a b c := by
  refine ⟨?_, ?_, ?_⟩
  · have hawaits := h.awaits
    rw [hb, ← hw]
    cases hx : (shapesOf .extending xs).head? with
    | none =>
      rw [hx] at hawaits
      rw [(h.keeps (by rw [hx]; nofun)).1, if_neg fun hc => by simpa using hawaits.mp hc.1]
      exact iff_of_true rfl (.inr nofun)
    | some x =>
      simp only [hx, Option.mem_some_iff, exists_eq_left'] at hawaits
      simp only [Option.mem_some_iff, forall_eq']
      rw [← hawaits]
      by_cases hl : cx.Leads s hidden name x
      · rw [(h.gains x hx hl).1]
        split_ifs with hc
        · exact iff_of_true rfl (.inr (iff_of_true hl hc))
        · simp [hl, hc]
      · rw [(h.keeps (by rw [hx]; rintro _ ⟨⟩; exact hl)).1]
        split_ifs with hc
        · simp [hl, hc, eq_comm]
        · exact iff_of_true rfl (.inr (iff_of_false hl hc))
  · rw [he, h.extraBases.same_iff]
    split_ifs with hk
    · simp [hk]
    · exact iff_of_true (fun x hx => nomatch hx) fun hc => absurd hc hk
  · rw [hi, h.interfaces.same_iff]

end Kin

end Bindery.Context
