import Bindery.Proofs.Binding.Declared

/-!
# Where heritage targets come from

The target of a type in a heritage clause is the first that its names lead to. This is the name of
the type itself, unless that name leads nowhere and a type argument leads somewhere.

* `Context.IsSilent`: the references that lead to no target.
* `Context.heritageTarget?`: the target of a type in a heritage clause.
* **`Context.Reads.cases`**: what one type of a clause does to the data of a class.
* **`Context.heritage_bindClass`**: the bases of a class, and when they come from the type itself.
-/

namespace Bindery.Context

open Draft

variable {cx : Context} {s : Symbol}

/-! ## References that lead nowhere -/

/-- A reference of the declaration `s` leads to no target: its name never refers to a declaration,
is that of `s` itself, built in, a type parameter, ignored, or waits for its import. -/
def IsSilent (cx : Context) (s : Symbol) (r : Reference) : Prop :=
  isRejected r.name = true ∨ r.strip.name = s.qualified ∨ cx.scope.isBuiltin r.strip.name = true ∨
    r.strip.name ∈ r.hidden ∨ r.strip.name ∈ s.ignored ∨
    ∃ source, cx.scope.meaning r.strip.name = .waiting source

theorem outcome?_eq_none_iff (r : Reference) : cx.outcome? s r = none ↔ cx.IsSilent s r := by
  unfold outcome? IsSilent Reference.tracked?
  by_cases h : isRejected r.name = true ∨ r.strip.name = s.qualified ∨
      cx.scope.isBuiltin r.strip.name = true
  · rw [if_pos h, Option.bind_none]
    simp only [true_iff]
    rcases h with h | h | h
    · exact .inl h
    · exact .inr (.inl h)
    · exact .inr (.inr (.inl h))
  · rw [if_neg h, Option.bind_some]
    rw [not_or, not_or] at h
    by_cases ho : r.strip.isOpen s = true
    · have hi := Reference.isOpen_iff.mp ho
      rw [Reference.hidden_strip] at hi
      rw [if_pos ho, target?_eq_none_iff]
      simp only [h.1, h.2.1, h.2.2, hi.1, hi.2, Bool.false_eq_true, false_or]
    · have hi := mt Reference.isOpen_iff.mpr ho
      rw [Reference.hidden_strip, not_and_or, not_not, not_not] at hi
      rw [if_neg ho]
      simp only [true_iff]
      rcases hi with hi | hi
      · exact .inr (.inr (.inr (.inl hi)))
      · exact .inr (.inr (.inr (.inr (.inl hi))))

/-! ## The target of a type -/

/-- The target that a type of a heritage clause contributes. -/
def heritageTarget? (cx : Context) (s : Symbol) (hidden : List String) (shape : TypeShape) :
    Option String :=
  (cx.shapeReferences hidden shape).findSome? (cx.outcome? s)

/-- The reference of a type in a heritage clause. -/
def heritageReference (hidden : List String) (w : TypeWord) : Reference :=
  { name := w.value, span := some w.nameSpan, strong := true, hidden }

/-- A type argument that leads somewhere. -/
def HasTarget (cx : Context) (s : Symbol) (hidden : List String) (arguments : List TypeShape) :
    Prop :=
  ∃ w ∈ TypeShape.namedAll arguments, w.kind = .reference ∧
    ¬cx.IsSilent s (heritageReference hidden w)

section Source

variable (hs : cx.scope.isLibrary = false) (hidden : List String)

include hs

theorem shapeReferences_of_source (shape : TypeShape) :
    cx.shapeReferences hidden shape = shape.references.map (heritageReference hidden) := by
  rw [shapeReferences, if_neg (by rw [hs]; decide)]
  rfl

theorem heritageTarget_of_source {d : Draft} {rs : List Reference} (h : d.Reflects cx s rs)
    (shape : TypeShape) :
    (cx.heritageTarget hidden shape d).2 = cx.heritageTarget? s hidden shape := by
  rw [heritageTarget, if_neg (by rw [hs]; decide), heritageTarget?, shapeReferences_of_source hs]
  exact (h.resolveFirst _).2

/-- The name of a type comes first, then its arguments. -/
theorem heritageTarget?_single {w : TypeWord} (hw : w.kind = .reference)
    (arguments : List TypeShape) : cx.heritageTarget? s hidden (.single w arguments) =
      (cx.outcome? s (heritageReference hidden w)).or
        (((TypeShape.namedAll arguments).filter (·.kind = .reference)).findSome? fun w =>
          cx.outcome? s (heritageReference hidden w)) := by
  rw [heritageTarget?, shapeReferences_of_source hs, TypeShape.references, TypeShape.named,
    List.filter_cons_of_pos (by simpa using hw), List.map_cons, List.findSome?_cons,
    List.findSome?_map]
  cases cx.outcome? s (heritageReference hidden w) <;> rfl

/-- **When a target comes from the type itself**: unless its name leads nowhere and one of its
arguments leads somewhere. -/
theorem heritageTarget?_iff {w : TypeWord} (hw : w.kind = .reference)
    (arguments : List TypeShape) :
    (cx.heritageTarget? s hidden (.single w arguments) = none ∨
        cx.heritageTarget? s hidden (.single w arguments) =
          cx.outcome? s (heritageReference hidden w)) ↔
      ¬(cx.IsSilent s (heritageReference hidden w) ∧ cx.HasTarget s hidden arguments) := by
  rw [heritageTarget?_single hs hidden hw, ← outcome?_eq_none_iff]
  cases ho : cx.outcome? s (heritageReference hidden w) with
  | some t => simp
  | none =>
    rw [Option.none_or, or_self, List.findSome?_eq_none_iff]
    simp only [List.mem_filter, decide_eq_true_eq, outcome?_eq_none_iff, HasTarget, true_and]
    constructor
    · rintro h ⟨a, ha, hk, hn⟩
      exact hn (h a ⟨ha, hk⟩)
    · rintro h a ⟨ha, hk⟩
      by_contra hn
      exact h ⟨a, ha, hk, hn⟩

end Source

/-! ## Reading the clauses -/

/-- The types of the clauses with one keyword. -/
def shapesOf (kind : HeritageKind) (xs : List Inherited) : List TypeShape :=
  (xs.filter (·.kind = kind)).map Inherited.shape

/-- What the types of the clauses add up to in the data of a class. -/
structure Inherits (cx : Context) (s : Symbol) (hidden : List String) (xs : List Inherited)
    (c : ClassInfo) : Prop where
  /-- The base is the target of the first type that is extended. -/
  base : c.base = (shapesOf .extending xs).head?.bind (cx.heritageTarget? s hidden)
  /-- An interface keeps the targets of the further ones. -/
  extraBases : c.extraBases = if s.kind = .interfaceSymbol then
    Roster.ofList ((shapesOf .extending xs).tail.filterMap (cx.heritageTarget? s hidden)) else {}
  interfaces : c.interfaces =
    Roster.ofList ((shapesOf .implementing xs).filterMap (cx.heritageTarget? s hidden))

theorem shapesOf_append (kind : HeritageKind) (xs : List Inherited) (x : Inherited) :
    shapesOf kind (xs ++ [x]) =
      shapesOf kind xs ++ if x.kind = kind then [x.shape] else [] := by
  rw [shapesOf, List.filter_append, List.map_append, shapesOf]
  by_cases hx : x.kind = kind <;> simp [hx]

theorem shapesOf_append_of_eq {kind : HeritageKind} {x : Inherited} (h : x.kind = kind)
    (xs : List Inherited) : shapesOf kind (xs ++ [x]) = shapesOf kind xs ++ [x.shape] := by
  rw [shapesOf_append, if_pos h]

theorem shapesOf_append_of_ne {kind : HeritageKind} {x : Inherited} (h : x.kind ≠ kind)
    (xs : List Inherited) : shapesOf kind (xs ++ [x]) = shapesOf kind xs := by
  rw [shapesOf_append, if_neg h, List.append_nil]

section Read

variable {hidden : List String} {xs : List Inherited} {x : Inherited} {c : ClassInfo}
  (h : cx.Inherits s hidden xs c)

include h

theorem Inherits.setBase (hx : x.kind = .extending) (hxs : shapesOf .extending xs = [])
    (parent : Option SymbolId) (awaited : Option String) :
    cx.Inherits s hidden (xs ++ [x])
      { c with
        base := cx.heritageTarget? s hidden x.shape
        parent := parent
        awaitedBase := awaited } := by
  refine ⟨?_, ?_, ?_⟩
  · rw [shapesOf_append_of_eq hx, hxs]
    rfl
  · show c.extraBases = _
    rw [h.extraBases, shapesOf_append_of_eq hx, hxs]
    rfl
  · show c.interfaces = _
    rw [h.interfaces, shapesOf_append_of_ne (by rw [hx]; decide)]

theorem Inherits.addBase (hx : x.kind = .extending) (hxs : shapesOf .extending xs ≠ [])
    {e : Roster String} (he : e = if s.kind = .interfaceSymbol then
      (cx.heritageTarget? s hidden x.shape).elim c.extraBases c.extraBases.insert
      else c.extraBases) :
    cx.Inherits s hidden (xs ++ [x]) { c with extraBases := e } := by
  refine ⟨?_, ?_, ?_⟩
  · show c.base = _
    rw [h.base, shapesOf_append_of_eq hx, List.head?_append_of_ne_nil _ hxs]
  · show e = _
    rw [he, h.extraBases, shapesOf_append_of_eq hx, List.tail_append_of_ne_nil hxs]
    split_ifs
    · rw [List.filterMap_append]
      cases ht : cx.heritageTarget? s hidden x.shape with
      | none => simp [ht]
      | some t => simp [ht, Roster.ofList_append_singleton]
    · rfl
  · show c.interfaces = _
    rw [h.interfaces, shapesOf_append_of_ne (by rw [hx]; decide)]

theorem Inherits.addInterface (hx : x.kind = .implementing) {e : Roster String}
    (he : e = (cx.heritageTarget? s hidden x.shape).elim c.interfaces c.interfaces.insert) :
    cx.Inherits s hidden (xs ++ [x]) { c with interfaces := e } := by
  refine ⟨?_, ?_, ?_⟩
  · show c.base = _
    rw [h.base, shapesOf_append_of_ne (by rw [hx]; decide)]
  · show c.extraBases = _
    rw [h.extraBases, shapesOf_append_of_ne (by rw [hx]; decide)]
  · show e = _
    rw [he, h.interfaces, shapesOf_append_of_eq hx, List.filterMap_append]
    cases ht : cx.heritageTarget? s hidden x.shape with
    | none => simp [ht]
    | some t => simp [ht, Roster.ofList_append_singleton]

end Read

section Lineage

variable (cx) (l : Lineage) (clause : Slot) (shape : TypeShape) (target : Option String)

theorem seen_extend : (cx.extend clause shape target l).seen = l.seen + 1 := by
  simp only [extend]
  split_ifs
  · rfl
  · cases target <;> rfl
  · rfl
  · rfl

theorem seen_implement : (implement target l).seen = l.seen := by
  cases target <;> rfl

theorem classInfo_extend_first (h : l.seen = 0) : ∃ parent,
    (cx.extend clause shape target l).draft.symbol.classInfo = l.draft.symbol.classInfo.map
      fun c => { c with
        base := target
        parent := parent
        awaitedBase := (shape.word?.map TypeWord.value).filter fun n =>
          target.isNone && cx.scope.waiting.contains n } := by
  simp only [extend, h, if_true]
  exact ⟨_, rfl⟩

theorem classInfo_extend_further (h : l.seen ≠ 0) :
    (cx.extend clause shape target l).draft.symbol.classInfo = l.draft.symbol.classInfo.map
      fun c => { c with
        extraBases := if l.draft.symbol.kind = .interfaceSymbol then
          target.elim c.extraBases c.extraBases.insert else c.extraBases } := by
  have hid : l.draft.symbol.classInfo.map (fun c => { c with extraBases := c.extraBases }) =
    l.draft.symbol.classInfo := Option.map_id'
  simp only [extend]
  rw [if_neg (by omega)]
  by_cases hk : l.draft.symbol.kind = .interfaceSymbol
  · simp only [if_pos hk]
    cases target with
    | none => exact hid.symm
    | some t => rfl
  · simp only [if_neg hk]
    split_ifs
    · exact hid.symm
    · exact hid.symm

theorem classInfo_implement :
    (implement target l).draft.symbol.classInfo = l.draft.symbol.classInfo.map
      fun c => { c with interfaces := target.elim c.interfaces c.interfaces.insert } := by
  cases target with
  | none => exact Option.map_id'.symm
  | some t => rfl

end Lineage

/-- A class whose first clauses have been read. -/
structure Reads (cx : Context) (s : Symbol) (hidden : List String) (xs : List Inherited)
    (l : Lineage) : Prop where
  reflects : ∃ rs, l.draft.Reflects cx s rs
  seen : l.seen = (shapesOf .extending xs).length
  info : ∃ c, l.draft.symbol.classInfo = some c ∧ cx.Inherits s hidden xs c

/-- **What one more type of a heritage clause does** to the data of a class: the first that is
extended sets the base, the further ones and those that are implemented are added. -/
theorem Reads.cases (hs : cx.scope.isLibrary = false) {hidden : List String} {xs : List Inherited}
    {l : Lineage} (h : cx.Reads s hidden xs l) (x : Inherited) {c : ClassInfo}
    (hc : l.draft.symbol.classInfo = some c) :
    ∃ c', (cx.inheritShape hidden l x).draft.symbol.classInfo = some c' ∧
      ((x.kind = .extending ∧ shapesOf .extending xs = [] ∧ ∃ parent, c' =
          { c with
            base := cx.heritageTarget? s hidden x.shape
            parent := parent
            awaitedBase := (x.shape.word?.map TypeWord.value).filter fun n =>
              (cx.heritageTarget? s hidden x.shape).isNone && cx.scope.waiting.contains n }) ∨
        (x.kind = .extending ∧ shapesOf .extending xs ≠ [] ∧ c' =
          { c with
            extraBases := if s.kind = .interfaceSymbol then
              (cx.heritageTarget? s hidden x.shape).elim c.extraBases c.extraBases.insert
              else c.extraBases }) ∨
        (x.kind = .implementing ∧ c' =
          { c with
            interfaces :=
              (cx.heritageTarget? s hidden x.shape).elim c.interfaces c.interfaces.insert })) := by
  obtain ⟨⟨rs, hr⟩, hseen, -⟩ := h
  have ht := heritageTarget_of_source hs hidden hr x.shape
  have hd := reflects_heritageTarget hr hidden x.shape
  have hcl : (cx.heritageTarget hidden x.shape l.draft).1.symbol.classInfo = some c := by
    rw [heritageTarget, if_neg (by rw [hs]; decide), classInfo_resolveFirst, hc]
  have hkind : (cx.heritageTarget hidden x.shape l.draft).1.symbol.kind = s.kind :=
    (congrArg Symbol.kind hd.bare :)
  rw [Context.inheritShape]
  generalize cx.heritageTarget hidden x.shape l.draft = res at *
  obtain ⟨draft, target⟩ := res
  obtain rfl : target = cx.heritageTarget? s hidden x.shape := ht
  change draft.symbol.classInfo = some c at hcl
  change draft.symbol.kind = s.kind at hkind
  cases hx : x.kind with
  | extending =>
    by_cases h0 : l.seen = 0
    · obtain ⟨parent, he⟩ := classInfo_extend_first cx { l with draft } x.clause x.shape
        (cx.heritageTarget? s hidden x.shape) h0
      have hxs : shapesOf .extending xs = [] := List.length_eq_zero_iff.mp (hseen ▸ h0)
      exact ⟨_, he.trans (by rw [hcl, Option.map_some]), .inl ⟨rfl, hxs, parent, rfl⟩⟩
    · have he := classInfo_extend_further cx { l with draft } x.clause x.shape
        (cx.heritageTarget? s hidden x.shape) h0
      have hxs : shapesOf .extending xs ≠ [] := fun hc => h0 (by rw [hseen, hc]; rfl)
      rw [hkind] at he
      exact ⟨_, he.trans (by rw [hcl, Option.map_some]), .inr (.inl ⟨rfl, hxs, rfl⟩)⟩
  | implementing =>
    have he := classInfo_implement { l with draft } (cx.heritageTarget? s hidden x.shape)
    exact ⟨_, he.trans (by rw [hcl, Option.map_some]), .inr (.inr ⟨rfl, rfl⟩)⟩

theorem Reads.inheritShape (hs : cx.scope.isLibrary = false) {hidden : List String}
    {xs : List Inherited} {l : Lineage} (h : cx.Reads s hidden xs l) (x : Inherited) :
    cx.Reads s hidden (xs ++ [x]) (cx.inheritShape hidden l x) := by
  obtain ⟨c, hc, hi⟩ := h.info
  refine ⟨?_, ?_, ?_⟩
  · obtain ⟨rs, hr⟩ := h.reflects
    exact ⟨_, reflects_inheritShape hr hidden x⟩
  · rw [Context.inheritShape]
    cases hx : x.kind with
    | extending =>
      rw [shapesOf_append_of_eq hx, List.length_append, ← h.seen]
      exact seen_extend _ _ _ _ _
    | implementing =>
      rw [shapesOf_append_of_ne (by rw [hx]; decide), ← h.seen]
      exact seen_implement _ _
  · obtain ⟨c', hc', ⟨hx, hxs, parent, rfl⟩ | ⟨hx, hxs, rfl⟩ | ⟨hx, rfl⟩⟩ := h.cases hs x hc
    · exact ⟨_, hc', hi.setBase hx hxs parent _⟩
    · exact ⟨_, hc', hi.addBase hx hxs rfl⟩
    · exact ⟨_, hc', hi.addInterface hx rfl⟩

theorem reads_inherit (hs : cx.scope.isLibrary = false) (hidden : List String) {c : ClassInfo}
    (hr : ({ symbol := s } : Draft).Reflects cx s []) (hc : s.classInfo = some c)
    (hi : cx.Inherits s hidden [] c) (clauses : List Slot) :
    cx.Reads s hidden (clauses.flatMap cx.inherited) (cx.inherit hidden s clauses) :=
  inherit_induction ⟨⟨[], hr⟩, rfl, c, hc, hi⟩ (fun _ _ x h => h.inheritShape hs x) clauses

/-! ## Members -/

/-- The data of a class without its bases keeps its bases. -/
def SameBases (c c' : ClassInfo) : Prop :=
  c'.base = c.base ∧ c'.extraBases = c.extraBases ∧ c'.interfaces = c.interfaces

/-- The data of a class without its members. -/
def memberless (c : ClassInfo) : ClassInfo :=
  { c with
    properties := {}
    staticProperties := {}
    methods := {}
    constructorBody := none
    modifierChanges := {} }

theorem memberless_markPrivate (header : Header) (c : ClassInfo) :
    memberless (cx.markPrivate header c) = memberless c := by
  unfold markPrivate
  split <;> rfl

theorem memberless_addProperty (p : Property) (c : ClassInfo) :
    memberless (c.addProperty p) = memberless c := by
  unfold ClassInfo.addProperty
  split_ifs <;> rfl

theorem memberless_recordMember (c : ClassInfo) (i : Nat) :
    memberless (cx.recordMember c i).1 = memberless c := by
  unfold recordMember
  cases cx.tree.node? (some i) with
  | none => rfl
  | some n =>
    dsimp only
    rcases cx.memberShape? i n.form with _ | (_ | ⟨_, _, _, header⟩ | ⟨_, _, header⟩)
    · rfl
    · rfl
    · exact (memberless_addProperty _ _).trans (memberless_markPrivate header c)
    · exact memberless_markPrivate header c

/-- **Members say nothing about the rest** of a class. -/
theorem memberless_recordMembers (c : ClassInfo) (members : List Nat) :
    memberless (cx.recordMembers c members).1 = memberless c := by
  unfold recordMembers
  generalize ([] : List Diagnostic) = ds
  induction members generalizing c ds with
  | nil => rfl
  | cons i members ih => exact (ih _ _).trans (memberless_recordMember c i)

theorem sameBases_recordMembers (c : ClassInfo) (members : List Nat) :
    SameBases c (cx.recordMembers c members).1 := by
  have h : memberless (cx.recordMembers c members).1 = memberless c :=
    memberless_recordMembers c members
  exact ⟨(congrArg ClassInfo.base h :), (congrArg ClassInfo.extraBases h :),
    (congrArg ClassInfo.interfaces h :)⟩

theorem Inherits.of_sameBases {hidden : List String} {xs : List Inherited} {c c' : ClassInfo}
    (h : cx.Inherits s hidden xs c) (hc : SameBases c c') : cx.Inherits s hidden xs c' :=
  ⟨hc.1.trans h.base, hc.2.1.trans h.extraBases, hc.2.2.trans h.interfaces⟩

/-! ## Classes -/

theorem outcome?_of_bare {t : Symbol} (h : s.bare = t.bare) : cx.outcome? s = cx.outcome? t := by
  funext r
  unfold outcome? Reference.tracked? Reference.isOpen
  rw [Symbol.qualified_of_bare h, Symbol.ignored_of_bare h]

theorem heritageTarget?_of_bare {t : Symbol} (hb : s.bare = t.bare) (hidden : List String) :
    cx.heritageTarget? s hidden = cx.heritageTarget? t hidden := by
  funext x
  rw [heritageTarget?, outcome?_of_bare hb, heritageTarget?]

theorem Inherits.of_bare {t : Symbol} (hb : s.bare = t.bare) {hidden : List String}
    {xs : List Inherited} {c : ClassInfo} (h : cx.Inherits s hidden xs c) :
    cx.Inherits t hidden xs c := by
  have hk : s.kind = t.kind := (congrArg Symbol.kind hb :)
  obtain ⟨h1, h2, h3⟩ := h
  rw [heritageTarget?_of_bare hb] at h1 h2 h3
  rw [hk] at h2
  exact ⟨h1, h2, h3⟩

/-- **The bases of a class** are the targets of the types in its clauses, and a target comes from
the type itself unless the name of the type leads nowhere and one of its arguments leads
somewhere. -/
theorem heritage_bindClass (hs : cx.scope.isLibrary = false) {kind : ClassKind} {i : Nat}
    {parts : ClassParts} {b : Bound} {ds : List Diagnostic}
    (h : cx.bindClass kind i parts = some (b, ds)) :
    (∃ c, b.symbol.classInfo = some c ∧
      cx.Inherits b.symbol (cx.parameterNames parts.typeParameters)
        (parts.heritage.flatMap cx.inherited) c) ∧
    ∀ x ∈ parts.heritage.flatMap cx.inherited, ∀ w arguments, x.shape = .single w arguments →
      w.kind = .reference →
      ((cx.heritageTarget? b.symbol (cx.parameterNames parts.typeParameters) x.shape = none ∨
          cx.heritageTarget? b.symbol (cx.parameterNames parts.typeParameters) x.shape =
            cx.outcome? b.symbol
              (heritageReference (cx.parameterNames parts.typeParameters) w)) ↔
        ¬(cx.IsSilent b.symbol (heritageReference (cx.parameterNames parts.typeParameters) w) ∧
          cx.HasTarget b.symbol (cx.parameterNames parts.typeParameters) arguments)) := by
  refine ⟨?_, fun x _ w arguments hx hw => ?_⟩
  · obtain ⟨s, hn, hb⟩ := Option.map_eq_some_iff.mp h
    set hidden := cx.parameterNames parts.typeParameters
    set data := cx.newClassInfo kind i hidden s
    have hstart : cx.Inherits { s with classInfo := some data } hidden [] data :=
      ⟨rfl, by split_ifs <;> rfl, rfl⟩
    obtain ⟨⟨rs, hr⟩, _, c, hc, hi⟩ := reads_inherit hs hidden
      (reflects_newSymbol? hn (some data)) rfl hstart parts.heritage
    have hsym := (congrArg (fun result => result.1.symbol) hb).symm
    refine ⟨_, (congrArg Symbol.classInfo hsym).trans (classInfo_resolveAll _ _ _), ?_⟩
    rw [hsym]
    refine Inherits.of_bare ((hr.setClass rfl _).resolveAll _).bare.symm ?_
    rw [hc]
    exact hi.of_sameBases (sameBases_recordMembers c _)
  · rw [hx]
    exact heritageTarget?_iff hs _ hw arguments

/-! ## A class that extends a built-in one -/

/-- The declaration of `class C extends Array<Item> {}`. -/
def arrayClass : ClassParts := { name := some 0, heritage := [some 5] }

/-- The source text of `arrayClass` with its nodes. -/
def arrayTree : Tree where
  file := "c.ts"
  source := "class C extends Array<Item> {}"
  nodes := #[⟨.identifier "C", ⟨6, 7⟩, none⟩, ⟨.identifier "Array", ⟨16, 21⟩, none⟩,
    ⟨.identifier "Item", ⟨22, 26⟩, none⟩, ⟨.typeReference (some 2) [], ⟨22, 26⟩, none⟩,
    ⟨.instantiation (some 1) [some 3], ⟨16, 27⟩, none⟩,
    ⟨.heritage .extending [some 4], ⟨8, 27⟩, none⟩,
    ⟨.classLike .classDeclaration arrayClass, ⟨0, 30⟩, none⟩]

/-- A unit that declares `Item`, where `Array` is built in. -/
def arrayContext : Context where
  tree := arrayTree
  scope :=
    { uri := "c.ts", path := [], locals := Table.empty.insert "Item" "Item"
      builtins := .only ["Array"] }
  store := {}
  options := {}

theorem heritage_bindClass_arrayClass : arrayContext.scope.isLibrary = false ∧
    ∃ b ds c, arrayContext.bindClass .classDeclaration 6 arrayClass = some (b, ds) ∧
      b.symbol.classInfo = some c ∧ arrayContext.Inherits b.symbol
        (arrayContext.parameterNames arrayClass.typeParameters)
        (arrayClass.heritage.flatMap arrayContext.inherited) c := by
  have hs : arrayContext.scope.isLibrary = false := by decide
  have hb : (arrayContext.bindClass .classDeclaration 6 arrayClass).isSome = true := by
    decide +kernel
  obtain ⟨⟨b, ds⟩, h⟩ := Option.isSome_iff_exists.mp hb
  obtain ⟨c, hc, hi⟩ := (heritage_bindClass hs h).1
  exact ⟨hs, b, ds, c, h, hc, hi⟩

/-- The base is the target of the argument, although `Array` itself leads nowhere. -/
theorem base_arrayClass :
    (arrayContext.bindClass .classDeclaration 6 arrayClass).map (fun result =>
      (result.1.symbol.classInfo.bind ClassInfo.base,
        arrayContext.outcome? result.1.symbol
          (heritageReference [] ⟨"Array", ⟨16, 27⟩, 21, false, .reference⟩))) =
      some (some "Item", none) := by
  decide +kernel

end Bindery.Context
