import Bindery.Proofs.TypeShape.Sites

/-!
# The references of a type expression

A shape is built down from a node in the same way as sites are followed, so its references are the
words of the sites, apart from those that are not read.

* `TypeShape.within`: a type with the array around it.
* `Tree.reference?`, `Tree.word?`: the name of a site, and the word that stands for it.
* `Tree.Reads`: sites from which a shape is built without loss.
* **`Tree.references_shapesAt`**: one more level of shapes holds one more level of words.
* **`Tree.references_ofNode?`**: the references of a type expression are the words of its sites.
-/

namespace Bindery

namespace TypeShape

/-! ## The references of shapes -/

theorem references_single (w : TypeWord) (arguments : List TypeShape) :
    (single w arguments).references =
      (if w.kind = .reference then [w] else []) ++ arguments.flatMap references := by
  rw [references, named, namedAll_eq_flatMap, List.filter_cons, List.filter_flatMap]
  by_cases h : w.kind = .reference
  · rw [if_pos (by simpa using h), if_pos h]
    rfl
  · rw [if_neg (by simpa using h), if_neg h]
    rfl

theorem references_of_parts {shape : TypeShape} {parts : List TypeShape}
    (h : shape.named = namedAll parts) : shape.references = parts.flatMap references := by
  rw [references, h, namedAll_eq_flatMap, List.filter_flatMap]
  rfl

/-- A single type that may be the element of an array. -/
def within (around : Option Span) (shape : TypeShape) : TypeShape :=
  around.elim shape fun span => shape.inArray span

theorem within_single (around : Option Span) (value : String) (span : Span) (stop : Nat)
    (kind : TypeWordKind) (arguments : List TypeShape) :
    (single ⟨value, span, stop, false, kind⟩ arguments).within around =
      single ⟨value, around.getD span, stop, around.isSome, kind⟩ arguments := by
  cases around <;> rfl

theorem within_of_word? (around : Option Span) {shape : TypeShape} (h : shape.word? = none) :
    shape.within around = shape := by
  cases around with
  | none => rfl
  | some span =>
    cases shape with
    | single w arguments => cases h
    | _ => rfl

theorem references_within_leaf (around : Option Span) (value : String) (span : Span)
    {kind : TypeWordKind} (h : kind ≠ .reference) :
    ((leaf value span kind).within around).references = [] := by
  rw [leaf, within_single, references_single, if_neg h]
  rfl

theorem references_within_of_parts (around : Option Span) {shape : TypeShape}
    {parts : List TypeShape} (h : shape.named = namedAll parts) (hw : shape.word? = none) :
    (shape.within around).references = parts.flatMap references := by
  rw [within_of_word? around hw, references_of_parts h]

/-- Of arrays inside one another the outermost counts. -/
theorem within_inArray (around : Option Span) (span : Span) (shape : TypeShape) :
    (shape.inArray span).within around = shape.within (around.or (some span)) := by
  cases around with
  | none => rfl
  | some outer => cases shape <;> rfl

end TypeShape

open TypeShape (build memberShapes references maxDepth)

/-- What a type refers to by name. -/
def Form.reference? : Form → Option Slot
  | .typeReference name _ | .instantiation name _ | .typeQuery name => some name
  | _ => none

/-- The span of a type that refers to something: after `typeof` that of the name alone. -/
def Node.wordSpan (n : Node) (name : Span) : Span :=
  match n.form with
  | .typeQuery _ => name
  | _ => n.span

namespace Tree

variable (t : Tree)

/-- The name by which the node of a site refers to something. -/
def reference? (s : Site) : Option Slot :=
  (t.form? s.slot).bind fun form => if s.role = .type then form.reference? else none

/-- The word that stands for a name in a shape. -/
def wordAt (s : Site) (n : Node) (name : Slot) : Option TypeWord :=
  (t.span? name).map fun w =>
    ⟨t.text name, s.around.getD (n.wordSpan w), w.stop, s.around.isSome, .reference⟩

/-- The word that stands for the node of a site in a shape. -/
def word? (s : Site) : Option TypeWord :=
  (t.node? s.slot).bind fun n => (t.reference? s).bind (t.wordAt s n)

/-- The words of the sites that are read. -/
def wordsFrom (n : Nat) (s : Site) : List TypeWord :=
  ((t.sites n s).filter (·.isRead)).filterMap t.word?

variable {t} {s s' : Site} {n : Nat}

theorem reference?_eq {n : Node} (hn : t.node? s.slot = some n) :
    t.reference? s = if s.role = .type then n.form.reference? else none := by
  rw [reference?, form?, hn]
  rfl

theorem reference?_eq_some_iff {name : Slot} : t.reference? s = some name ↔
    ∃ n, t.node? s.slot = some n ∧ s.role = .type ∧ n.form.reference? = some name := by
  cases hn : t.node? s.slot with
  | none => simp [reference?, form?, hn]
  | some n => simp [reference?_eq hn]

theorem word?_eq_some_iff {word : TypeWord} : t.word? s = some word ↔ ∃ n name w,
    t.node? s.slot = some n ∧ t.reference? s = some name ∧ t.span? name = some w ∧ word =
      ⟨t.text name, s.around.getD (n.wordSpan w), w.stop, s.around.isSome, .reference⟩ := by
  simp only [word?, wordAt, Option.bind_eq_some_iff, Option.map_eq_some_iff]
  constructor
  · rintro ⟨n, hn, name, hname, w, hw, rfl⟩
    exact ⟨n, name, w, hn, hname, hw, rfl⟩
  · rintro ⟨n, name, w, hn, hname, hw, rfl⟩
    exact ⟨n, hn, name, hname, w, hw, rfl⟩

theorem wordsFrom_succ (h : s.isRead = true) : t.wordsFrom (n + 1) s =
    (t.word? s).toList ++ (t.sitesIn s).flatMap (t.wordsFrom n) := by
  rw [wordsFrom, sites, List.filter_cons_of_pos h, List.filterMap_cons, List.filter_flatMap,
    List.filterMap_flatMap]
  cases t.word? s <;> rfl

theorem wordsFrom_of_not_isRead (h : s.isRead = false) : t.wordsFrom n s = [] := by
  induction n generalizing s with
  | zero => rfl
  | succ n ih =>
    rw [wordsFrom, sites, List.filter_cons_of_neg (by simp [h]), List.filter_flatMap,
      List.filterMap_flatMap]
    exact List.flatMap_eq_nil_iff.mpr fun s' hs' => ih (isRead_of_mem_sitesIn hs' h)

/-- **A site that can be read**: nothing below it lies too deep, and whatever has type arguments has
a name. -/
structure Reads (t : Tree) (s : Site) : Prop where
  isRead : s.isRead = true
  level : ∀ k, t.Leads s k → k.level ≤ maxDepth
  named : ∀ k, t.Leads s k → ∀ name, t.reference? k = some name → t.sitesIn k ≠ [] →
    (t.span? name).isSome = true

theorem Reads.child (h : t.Reads s) (hs : s' ∈ t.sitesIn s) (hr : s'.isRead = true) : t.Reads s' :=
  ⟨hr, fun k hk => h.level k (.head hs hk), fun k hk => h.named k (.head hs hk)⟩

/-- The words of a type or of a member, as they are found in its shapes. -/
def shapesAt (t : Tree) (fuel : Nat) (s : Site) : List TypeShape :=
  match s.role with
  | .type => (build t fuel s.level s.slot).toList.map (·.within s.around)
  | .member => memberShapes t fuel s.level s.slot
  | .typeParameter => []

/-! ## Shapes and sites -/

section Parts

variable {fuel : Nat} {u : Site}
  (ih : ∀ s, t.Reads s → (t.shapesAt fuel s).flatMap references = t.wordsFrom fuel s)
  (h : t.Reads s) (hu : u.isRead = true)

include ih h hu

theorem references_inside {i : Slot} {around : Option Span}
    (hi : (u.type i).inside around ∈ t.sitesIn s) :
    ((build t fuel (u.level + 1) i).toList.map (TypeShape.within around)).flatMap references =
      t.wordsFrom fuel ((u.type i).inside around) := ih _ (h.child hi hu)

theorem references_type {i : Slot} (hi : u.type i ∈ t.sitesIn s) :
    (build t fuel (u.level + 1) i).toList.flatMap references = t.wordsFrom fuel (u.type i) := by
  rw [show u.type i = (u.type i).inside none from rfl, ← references_inside ih h hu hi,
    List.flatMap_map]
  rfl

theorem references_types {types : List Slot} (hi : ∀ i ∈ types, u.type i ∈ t.sitesIn s) :
    (types.filterMap (build t fuel (u.level + 1))).flatMap references =
      (types.map u.type).flatMap (t.wordsFrom fuel) := by
  rw [List.filterMap_eq_flatMap_toList, List.flatMap_assoc, List.flatMap_map]
  exact List.flatMap_congr fun i him => references_type ih h hu (hi i him)

theorem references_members {members : List Slot} (hi : ∀ i ∈ members, u.member i ∈ t.sitesIn s) :
    (members.flatMap (memberShapes t fuel u.level)).flatMap references =
      (members.map u.member).flatMap (t.wordsFrom fuel) := by
  rw [List.flatMap_assoc, List.flatMap_map]
  exact List.flatMap_congr fun i him => ih _ (h.child (hi i him) hu)

theorem references_signature {typeParameters parameters : List Slot} {result : Slot}
    (hs : ∀ k ∈ u.signature typeParameters parameters result, k ∈ t.sitesIn s) :
    (parameters.flatMap (memberShapes t fuel u.level) ++
        (build t fuel (u.level + 1) result).toList).flatMap references =
      (u.signature typeParameters parameters result).flatMap (t.wordsFrom fuel) := by
  simp only [Site.signature, List.mem_append, List.mem_map, List.mem_singleton] at hs
  have hnone : (typeParameters.map u.typeParameter).flatMap (t.wordsFrom fuel) = [] := by
    rw [List.flatMap_map]
    refine List.flatMap_eq_nil_iff.mpr fun i hi => ?_
    exact (ih _ (h.child (hs _ (.inl (.inl ⟨i, hi, rfl⟩))) hu)).symm
  rw [Site.signature, List.flatMap_append, List.flatMap_append, List.flatMap_append, hnone,
    List.nil_append, List.flatMap_singleton,
    references_members ih h hu fun i hi => hs _ (.inl (.inr ⟨i, hi, rfl⟩)),
    references_type ih h hu (hs _ (.inr rfl))]

end Parts

section Step

variable {fuel : Nat}
  (ih : ∀ s, t.Reads s → (t.shapesAt fuel s).flatMap references = t.wordsFrom fuel s)
  (h : t.Reads s)

include ih h

theorem references_memberShapes (hr : s.role = .member) :
    (memberShapes t (fuel + 1) s.level s.slot).flatMap references =
      t.wordsFrom (fuel + 1) s := by
  rw [wordsFrom_succ h.isRead, word?, memberShapes, form?]
  cases hnode : t.node? s.slot with
  | none =>
    rw [sitesIn, hnode]
    rfl
  | some n =>
    have hsites : t.sitesIn s = if n.form.role = .member then s.below n.span n.form else [] := by
      rw [sitesIn, hnode, hr]
    rw [Option.map_some, Option.bind_some, reference?_eq hnode, hr]
    cases hf : n.form with
    | propertySignature _ _ annotation =>
      rw [hf] at hsites
      replace hsites : t.sitesIn s = [s.type annotation] := hsites
      rw [hsites, List.flatMap_singleton]
      exact references_type ih h h.isRead (hsites ▸ List.mem_singleton_self _)
    | field kind header parts =>
      rw [hf] at hsites
      cases kind with
      | property =>
        rw [hsites]
        rfl
      | parameter =>
        replace hsites : t.sitesIn s = [s.type parts.annotation] := hsites
        rw [hsites, List.flatMap_singleton]
        exact references_type ih h h.isRead (hsites ▸ List.mem_singleton_self _)
    | methodSignature _ _ typeParameters parameters result =>
      rw [hf] at hsites
      replace hsites : t.sitesIn s =
        { s with level := s.level + 1 }.signature typeParameters parameters result := hsites
      rw [hsites]
      show List.flatMap references [_] = _
      rw [List.flatMap_singleton, TypeShape.references_of_parts rfl]
      exact references_signature (u := { s with level := s.level + 1 }) ih h h.isRead
        fun k hk => hsites ▸ hk
    | _ =>
      rw [hf] at hsites
      rw [hsites]
      rfl

theorem references_named {n : Node} {name : Slot} {span : Span → Span} (arguments : List Slot)
    (hspan : n.wordSpan = span) (hname : t.reference? s = some name)
    (hsites : t.sitesIn s = arguments.map s.type) :
    (((t.span? name).map fun w =>
        TypeShape.single ⟨t.text name, span w, w.stop, false, .reference⟩
          (arguments.filterMap (build t fuel (s.level + 1)))).toList.map
      (TypeShape.within s.around)).flatMap references =
      (t.wordAt s n name).toList ++ (t.sitesIn s).flatMap (t.wordsFrom fuel) := by
  rw [wordAt, hspan]
  cases hw : t.span? name with
  | none =>
    -- Without a name the arguments would be lost.
    have hempty : t.sitesIn s = [] := by
      by_contra hne
      have := h.named s .refl name hname hne
      rw [hw] at this
      cases this
    rw [hempty]
    rfl
  | some w =>
    show List.flatMap references [_] = _
    rw [List.flatMap_singleton, TypeShape.within_single, TypeShape.references_single, if_pos rfl,
      hsites, references_types ih h h.isRead fun i hi => hsites ▸ List.mem_map_of_mem hi]
    rfl

theorem references_build (hr : s.role = .type) :
    ((build t (fuel + 1) s.level s.slot).toList.map
      (TypeShape.within s.around)).flatMap references = t.wordsFrom (fuel + 1) s := by
  have hlevel : ¬maxDepth < s.level := Nat.not_lt.mpr (h.level s .refl)
  rw [wordsFrom_succ h.isRead, word?, build, if_neg hlevel]
  cases hnode : t.node? s.slot with
  | none =>
    rw [sitesIn, hnode]
    rfl
  | some n =>
    have hsites : t.sitesIn s = if n.form.role = .type then s.below n.span n.form else [] := by
      rw [sitesIn, hnode, hr]
    have hname : t.reference? s = n.form.reference? := by rw [reference?_eq hnode, if_pos hr]
    rw [Option.bind_some, hname]
    dsimp only
    cases hf : n.form with
    | typeReference name arguments | instantiation name arguments =>
      rw [hf] at hsites hname
      exact references_named ih h arguments (funext fun w => by rw [Node.wordSpan, hf]) hname hsites
    | typeQuery name =>
      rw [hf] at hsites hname
      exact references_named ih h [] (funext fun w => by rw [Node.wordSpan, hf]) hname hsites
    | keywordType _ | literalType _ =>
      rw [hf] at hsites
      rw [hsites]
      show List.flatMap references [_] = _
      rw [List.flatMap_singleton, TypeShape.references_within_leaf _ _ _ (by decide)]
      rfl
    | arrayType item =>
      rw [hf] at hsites
      replace hsites : t.sitesIn s = [(s.type item).inside (s.around.or (some n.span))] := hsites
      rw [hsites, List.flatMap_singleton,
        ← references_inside ih h h.isRead (hsites ▸ List.mem_singleton_self _)]
      show List.flatMap references (List.map _ (Option.map _ _).toList) = _
      cases build t fuel (s.level + 1) item with
      | none => rfl
      | some shape => exact congrArg (fun x => references x ++ []) (TypeShape.within_inArray _ _ _)
    | parenthesizedType inner =>
      rw [hf] at hsites
      replace hsites : t.sitesIn s = [(s.type inner).inside s.around] := hsites
      rw [hsites, List.flatMap_singleton,
        ← references_inside ih h h.isRead (hsites ▸ List.mem_singleton_self _)]
      rfl
    | indexedAccess object index =>
      rw [hf] at hsites
      replace hsites : t.sitesIn s =
        [(s.type object).inside s.around, (s.type index).unread] := hsites
      have hindex : t.wordsFrom fuel (s.type index).unread = [] := wordsFrom_of_not_isRead rfl
      rw [hsites, List.flatMap_cons, List.flatMap_singleton, hindex, List.append_nil,
        ← references_inside ih h h.isRead (hsites ▸ List.mem_cons_self)]
      rfl
    | combination _ types | tupleType types =>
      rw [hf] at hsites
      replace hsites : t.sitesIn s = types.map s.type := hsites
      show List.flatMap references [_] = _
      rw [List.flatMap_singleton, TypeShape.references_within_of_parts _ rfl rfl, hsites,
        references_types ih h h.isRead fun i hi => hsites ▸ List.mem_map_of_mem hi]
      rfl
    | typeLiteral members =>
      rw [hf] at hsites
      replace hsites : t.sitesIn s = members.map s.member := hsites
      show List.flatMap references [_] = _
      rw [List.flatMap_singleton, TypeShape.references_within_of_parts _ rfl rfl, hsites,
        references_members ih h h.isRead fun i hi => hsites ▸ List.mem_map_of_mem hi]
      rfl
    | functionType typeParameters parameters result =>
      rw [hf] at hsites
      replace hsites : t.sitesIn s = s.signature typeParameters parameters result := hsites
      show List.flatMap references [_] = _
      rw [List.flatMap_singleton, TypeShape.references_within_of_parts _ rfl rfl, hsites,
        references_signature ih h h.isRead fun k hk => hsites ▸ hk]
      rfl
    | _ =>
      rw [hf] at hsites
      rw [hsites]
      rfl

end Step

/-- **Shapes hold the words of the sites that are read**, as far down as both are followed. -/
theorem references_shapesAt (fuel : Nat) (h : t.Reads s) :
    (t.shapesAt fuel s).flatMap references = t.wordsFrom fuel s := by
  induction fuel generalizing s with
  | zero =>
    rw [shapesAt]
    cases s.role <;> rfl
  | succ fuel ih =>
    rw [shapesAt]
    cases hr : s.role with
    | type => exact references_build (fun _ => ih) h hr
    | member => exact references_memberShapes (fun _ => ih) h hr
    | typeParameter =>
      have hname : t.reference? s = none := by
        cases hnode : t.node? s.slot with
        | none => rw [reference?, form?, hnode]; rfl
        | some n => rw [reference?_eq hnode, hr]; rfl
      have hword : t.word? s = none := by
        rw [word?, hname]
        cases t.node? s.slot <;> rfl
      rw [wordsFrom_succ h.isRead, hword]
      refine (List.flatMap_eq_nil_iff.mpr fun s' hs' => wordsFrom_of_not_isRead ?_).symm
      exact isRead_of_typeParameter hr hs'

/-! ## Type expressions -/

/-- More steps than a type expression has that does not nest too deeply. -/
def maxSteps : Nat := 2 * maxDepth + 2

theorem ends_maxSteps {i : Slot} (h : ∀ s, t.Leads { slot := i } s → s.level ≤ maxDepth) :
    t.Ends maxSteps { slot := i } :=
  ends_of_level_le h (Nat.le_add_left _ _)

/-- The bound on the recursion is not what ends it. -/
theorem sites_size {i : Slot} (h : ∀ s, t.Leads { slot := i } s → s.level ≤ maxDepth)
    (hn : maxSteps ≤ n) :
    t.sites (t.size + maxDepth + 2) { slot := i } = t.sites n { slot := i } := by
  have hends := ends_maxSteps h
  calc t.sites (t.size + maxDepth + 2) { slot := i }
      = t.sites (t.size + 1) { slot := i } := sites_eq_of_ends (ends_size hends) (by omega)
    _ = t.sites (max (t.size + 1) n) { slot := i } :=
      (sites_eq_of_ends (ends_size hends) (Nat.le_max_left _ _)).symm
    _ = t.sites maxSteps { slot := i } :=
      sites_eq_of_ends hends (Nat.le_trans hn (Nat.le_max_right _ _))
    _ = t.sites n { slot := i } := (sites_eq_of_ends hends hn).symm

/-- **The references of a type expression** are the words of its sites that are read, in order. -/
theorem references_ofNode? {i : Slot} (h : t.Reads { slot := i }) (hn : maxSteps ≤ n) :
    (TypeShape.ofNode? t i).toList.flatMap references = t.wordsFrom n { slot := i } := by
  have hsites := sites_size h.level hn
  have hrefs := references_shapesAt (t.size + maxDepth + 2) h
  rw [wordsFrom, hsites] at hrefs
  rw [wordsFrom, ← hrefs, shapesAt, List.flatMap_map]
  rfl

theorem mem_references_ofNode? {i : Slot} (h : t.Reads { slot := i }) {shape : TypeShape}
    (hs : TypeShape.ofNode? t i = some shape) {w : TypeWord} : w ∈ shape.references ↔
      ∃ s, t.Leads { slot := i } s ∧ s.isRead = true ∧ t.word? s = some w := by
  have hrefs := references_ofNode? h (Nat.le_refl maxSteps)
  rw [hs, Option.toList_some, List.flatMap_singleton] at hrefs
  rw [hrefs, wordsFrom, List.mem_filterMap]
  simp only [List.mem_filter, mem_sites (ends_maxSteps h.level), and_assoc]

end Tree

end Bindery
