import Bindery.Proofs.Binding.Declared

/-!
# Member accesses

The object of a member access is recorded wherever the walk comes by.

* `Context.Accesses`: an access to what a name stands for.
* **`Context.mem_belowTo_of_meets`**: whatever is met is read.
* **`Context.records_of_mem_bind`**: the objects of accesses are recorded.
-/

namespace Bindery

namespace Context

/-- **An access to what `n` stands for**: the node `a` is an access whose object is the identifier `n`
at `s`, a name that the unit declares or imports, and no symbol that is known under the name of the
member is what the access spells. -/
structure Accesses (cx : Context) (a : Nat) (n : String) (s : Span) : Prop where
  access : ∃ object member, cx.tree.form? (some a) = some (.access object member) ∧
    cx.tree.form? object = some (.identifier n) ∧ cx.tree.span? object = some s ∧
      ∀ x, cx.store.byShortName? (cx.tree.text member) = some x →
        x.qualified ≠ n ++ "." ++ cx.tree.text member
  text : Text.sliceString? cx.tree.source s = some n
  nonempty : ¬s.IsEmpty
  unqualified : '.' ∉ n.toList
  plain : '<' ∉ n.toList
  bound : cx.scope.hasLocal n = true ∨ cx.scope.hasImport n = true
  free : cx.scope.isBuiltin n = false
  ordinary : n ≠ "constructor" ∧ n ≠ "toString"

variable {cx : Context} {n : String} {s : Span}

/-! ## Reading -/

/-- **Whatever is met is read.** -/
theorem mem_belowTo_of_meets {depth i a : Nat} (h : cx.tree.Meets Form.isOpen depth i a) {strong : Bool}
    {r : Reference} (hr : ∀ recurse, r ∈ cx.belowNode recurse strong a) :
    r ∈ cx.belowTo depth strong i := by
  induction h with
  | child ha => exact List.mem_flatMap.mpr ⟨_, ha, hr _⟩
  | @deeper depth i c a hc hf h ih =>
    refine List.mem_flatMap.mpr ⟨c, hc, ?_⟩
    unfold belowNode
    split
    · next hform => cases hf _ hform
    · next hform => cases hf _ hform
    · exact List.mem_append_right _ (ih hr)

namespace Accesses

variable {a : Nat} (h : cx.Accesses a n s)

include h

theorem ne_empty : n ≠ "" := by
  rintro rfl
  obtain ⟨bs, hbs, hnil⟩ := Option.map_eq_some_iff.mp ((Text.sliceString?_eq _ _).symm.trans h.text)
  rw [String.ofList_eq_empty_iff] at hnil
  obtain ⟨as, rest, -, hs, he⟩ := Text.slice?_eq_some_iff.mp hbs
  apply h.nonempty
  rw [Span.IsEmpty, hs, he, hnil]
  exact Nat.le_refl _

theorem mem_belowNode (hthis : cx.scope.isBuiltin "this" = true) (recurse : Nat → List Reference)
    (strong : Bool) : { name := n, span := some s, strong } ∈ cx.belowNode recurse strong a := by
  obtain ⟨object, member, ha, -, hspan, hmember⟩ := h.access
  have htext : cx.tree.text object = n := by
    rw [Tree.text, hspan, Option.bind_some, h.text, Option.getD_some]
  have hknown : cx.knownMember? n (cx.tree.text member) = none := by
    rw [knownMember?, Option.filter_eq_none_iff]
    intro q hq
    obtain ⟨x, hx, rfl⟩ := Option.map_eq_some_iff.mp hq
    simpa using hmember x hx
  have hne : n ≠ "this" := fun he => by
    have hfree := h.free
    rw [he, hthis] at hfree
    cases hfree
  have hdot : Scope.isQualified n = false := by simpa [Scope.isQualified] using h.unqualified
  unfold belowNode
  rw [ha]
  refine List.mem_append_left _ ?_
  rw [expressionReferences, ha]
  refine List.mem_append_left _ ?_
  rw [accessReference, hspan]
  dsimp only
  rw [htext, hknown]
  dsimp only
  rw [if_pos ⟨hne, hdot, h.bound⟩]
  exact List.mem_singleton_self _

/-- The reference is kept track of, whatever hides the name. -/
theorem tracked_eq {x : Symbol} (hx : n ≠ x.qualified) (strong : Bool) (hidden : List String) :
    ({ name := n, span := some s, strong, hidden } : Reference).tracked? cx x =
      some { name := n, span := some s, strong, hidden } := by
  have hstrip : ({ name := n, span := some s, strong, hidden } : Reference).strip =
      { name := n, span := some s, strong, hidden } := by
    rw [Reference.strip, stripArguments_of_not_mem h.plain]
    rfl
  rw [Reference.tracked?, hstrip, if_neg]
  simp [Draft.isRejected, h.ne_empty, h.ordinary, hx, h.free]

end Accesses

/-! ## Declarations -/

variable {statement : Slot} {d : Symbol × List Reference}

/-- A declaration at the node `i` holds what is read below its roots. -/
structure ReadsText (cx : Context) (statement : Slot) (d : Symbol × List Reference) (i : Nat) :
    Prop where
  place : cx.tree.DeclaresAt statement i d.1.name d.1.span
  references : ∀ root ∈ cx.tree.textRoots statement i, ∃ strong, ∀ r ∈ cx.below strong root,
    ∃ hidden, { r with hidden } ∈ d.2

theorem mem_shade {hidden : List String} {rs : List Reference} {r : Reference} (h : r ∈ rs) :
    { r with hidden } ∈ shade hidden rs := List.mem_map_of_mem h

theorem readsText_of_declarePlain (hsource : cx.scope.isLibrary = false) {kind : SymbolKind} {i : Nat}
    {form : Form} {header : Header} (hi : cx.tree.form? (some i) = some form)
    (hnode : some i ∈ cx.tree.declarationNodes statement)
    (hroots : cx.tree.textRoots statement i = [i])
    (hd : cx.declarePlain kind i form.name header = some d) : cx.ReadsText statement d i := by
  obtain ⟨x, hx, rfl⟩ := Option.map_eq_some_iff.mp hd
  have htext : ∀ r ∈ cx.below false i,
      { r with hidden := cx.ownTypeParameters (some i) } ∈ cx.plainReferences i header := by
    intro r hr
    rw [plainReferences, if_neg (by simp [hsource])]
    exact mem_shade (List.mem_append_right _ hr)
  refine ⟨declaresAt_newSymbol? hi hnode hx, fun root hroot =>
    ⟨false, fun r hr => ⟨_, htext r ?_⟩⟩⟩
  rw [hroots, List.mem_singleton] at hroot
  exact hroot ▸ hr

theorem readsText_of_declareClass (hsource : cx.scope.isLibrary = false) {kind : ClassKind} {i : Nat}
    {parts : ClassParts} (hi : cx.tree.form? (some i) = some (.classLike kind parts))
    (hd : cx.declareClass kind i parts = some d) : cx.ReadsText (some i) d i := by
  obtain ⟨x, hx, rfl⟩ := Option.map_eq_some_iff.mp hd
  have hnode : some i ∈ cx.tree.declarationNodes (some i) := by
    rw [Tree.declarationNodes, hi]
    exact List.mem_singleton_self _
  have hplace : cx.tree.DeclaresAt (some i) i x.name x.span := declaresAt_newSymbol? hi hnode hx
  refine ⟨hplace, fun root hroot => ?_⟩
  rw [Tree.mem_textRoots_classLike hi] at hroot
  have hbody : ∀ r ∈ cx.bodyReferences i parts (cx.parameterNames parts.typeParameters),
      r ∈ cx.classReferences i parts := fun r hr => List.mem_append_right _ hr
  rw [bodyReferences, if_neg (by simp [hsource])] at hbody
  by_cases hdec : some root ∈ parts.header.decorators
  · refine ⟨false, fun r hr => ⟨_, hbody _ (List.mem_append_right _ (mem_shade
      (List.mem_append_right _ (List.mem_flatMap.mpr ⟨root, ?_, hr⟩))))⟩⟩
    exact List.mem_filterMap.mpr ⟨some root, hdec, rfl⟩
  · refine ⟨_, fun r hr => ⟨_, hbody _ (List.mem_append_left _ (List.mem_flatMap.mpr
      ⟨root, ?_, mem_shade hr⟩))⟩⟩
    exact List.mem_filter.mpr ⟨hroot.1, by simp [hroot.2.resolve_left hdec, hdec]⟩

theorem exists_readsText (hsource : cx.scope.isLibrary = false)
    (hd : d ∈ cx.declarations statement) : ∃ i, cx.ReadsText statement d i := by
  rcases statement with _ | i
  · cases hd
  unfold declarations at hd
  cases hi : cx.tree.form? (some i) with
  | none =>
    rw [hi] at hd
    cases hd
  | some form =>
    rw [hi] at hd
    have hplain : ∀ {kind header}, cx.tree.declarationNodes (some i) = [some i] →
        cx.tree.textRoots (some i) i = [i] →
          d ∈ (cx.declarePlain kind i form.name header).toList →
            ∃ i', cx.ReadsText (some i) d i' := fun hnode hroots hd =>
      ⟨i, readsText_of_declarePlain hsource hi (hnode ▸ List.mem_singleton_self _) hroots
        (Option.mem_toList.mp hd)⟩
    cases form with
    | classLike kind parts =>
      exact ⟨i, readsText_of_declareClass hsource hi (Option.mem_toList.mp hd)⟩
    | enumeration header name _ =>
      exact hplain (by rw [Tree.declarationNodes, hi]) (by rw [Tree.textRoots, hi]) hd
    | function kind f =>
      cases kind with
      | declaration =>
        exact hplain (by rw [Tree.declarationNodes, hi]) (by rw [Tree.textRoots, hi]) hd
      | _ => cases hd
    | typeAlias header name _ _ =>
      exact hplain (by rw [Tree.declarationNodes, hi]) (by rw [Tree.textRoots, hi]) hd
    | variableStatement header declarations =>
      obtain ⟨v, hv, hd⟩ := List.mem_filterMap.mp hd
      simp only [declareVariable, Option.bind_eq_bind, Option.bind_eq_some_iff] at hd
      obtain ⟨form, hform, j, rfl, hd⟩ := hd
      refine ⟨j, readsText_of_declarePlain hsource hform ?_ ?_ hd⟩
      · rw [Tree.declarationNodes, hi]
        exact hv
      · rw [Tree.textRoots, hi]
    | _ => cases hd

/-- **The objects of accesses are recorded**: whatever hides or ignores a name, the place of an
object that is met below a root of a declaration is among the places of its name. -/
theorem records_of_mem_bind (hsource : cx.scope.isLibrary = false)
    (hthis : cx.scope.isBuiltin "this" = true) {b : Bound} (hb : b ∈ (cx.bind statement).1) :
    ∃ i, some i ∈ cx.tree.declarationNodes statement ∧
      cx.tree.declaredName? (some i) = some b.symbol.name ∧
      cx.tree.span? (some i) = some b.symbol.span ∧
      ∀ root ∈ cx.tree.textRoots statement i,
        ∀ a, cx.tree.Meets Form.isOpen (maxWalkDepth + 1) root a →
          ∀ n s, cx.Accesses a n s → n ≠ b.symbol.qualified →
            ∃ m, b.symbol.mentions? n = some m ∧ s ∈ m.locations := by
  obtain ⟨d, hd, h⟩ := exists_of_mem_bind hb
  obtain ⟨i, hplace, hreferences⟩ := exists_readsText hsource hd
  have hbare : b.symbol.bare = d.1.bare := h.bare
  refine ⟨i, hplace.node, ?_, ?_, fun root hroot a ha n s hn hne => ?_⟩
  · rw [hplace.name, Symbol.name_of_bare hbare]
  · rw [hplace.span, Symbol.span_of_bare hbare]
  obtain ⟨strong, hbelow⟩ := hreferences root hroot
  obtain ⟨hidden, hr⟩ := hbelow _ (mem_belowTo_of_meets ha fun recurse =>
    hn.mem_belowNode hthis recurse strong)
  rw [Symbol.qualified_of_bare hbare] at hne
  have htracked : { name := n, span := some s, strong, hidden } ∈ cx.tracked d.1 d.2 :=
    List.mem_filterMap.mpr ⟨_, hr, hn.tracked_eq hne strong hidden⟩
  have hplace : s ∈ cx.placesOf d.1 d.2 n := by
    refine List.mem_filterMap.mpr ⟨_, List.mem_filter.mpr ⟨htracked, by simp⟩, ?_⟩
    exact Option.filter_eq_some_iff.mpr ⟨rfl, by simpa using hn.nonempty⟩
  refine ⟨_, (h.mentions n).trans (if_neg (List.ne_nil_of_mem hplace)), ?_⟩
  exact Roster.mem_ofList.mpr hplace

end Context

end Bindery
