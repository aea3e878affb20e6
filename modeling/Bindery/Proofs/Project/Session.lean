import Bindery.Proofs.Binding.Declared
import Bindery.Proofs.Project.Supply
import Bindery.Proofs.Scope.Queue

/-!
# Binding a unit

What one session of binding adds to the symbols that are there.

* `Session.Extends`: the session has enrolled its own symbols and left the others alone.
* **`Session.Extends.take`**, **`Session.Extends.bindStatement`**: one symbol, one statement.
* `Session.Adds`, `Session.Owns`: what waits for a name belongs to symbols of the session.
* **`Project.extends_session`**: all statements of a unit.
* `Project.enter`: the project with the new unit, before waiting imports are looked for.
-/

namespace Bindery

namespace Project

/-- The roll of a session. -/
def Session.roll (s : Session) : List Listing :=
  s.ids.map fun id => ⟨id, s.scope.uri, !s.scope.isLibrary⟩

/-- **What a session adds** to a store with this roll, for a unit with this scope. -/
structure Session.Extends (store : Store) (roll : List Listing) (scope : Scope) (s : Session) :
    Prop where
  scope : s.scope.drained = scope.drained
  lists : s.store.Lists (roll ++ s.roll)
  old : ∀ id x, store.symbol? id = some x → s.store.symbol? id = some x

variable {store : Store} {roll : List Listing} {scope : Scope} {s : Session}

/-- Before anything is bound. -/
theorem Session.extends_start (h : store.Lists roll) (scope : Scope) :
    ({ store, scope } : Session).Extends store roll scope := by
  refine ⟨rfl, ?_, fun _ _ hx => hx⟩
  rw [Session.roll]
  simpa using h

theorem Session.store_take (s : Session) (b : Bound) :
    (s.take b).store = (s.store.enroll b.symbol !s.scope.isLibrary).1 := rfl

theorem Session.ids_take (s : Session) (b : Bound) :
    (s.take b).ids = s.ids ++ [(s.store.enroll b.symbol !s.scope.isLibrary).2.1] := rfl

theorem Session.scope_take (s : Session) (b : Bound) : (s.take b).scope =
    s.scope.awaitAll (s.store.enroll b.symbol !s.scope.isLibrary).2.1 b.deferred := rfl

theorem Session.drained_take (s : Session) (b : Bound) :
    (s.take b).scope.drained = s.scope.drained := s.scope.drained_awaitAll _ _

theorem Session.Extends.take (h : s.Extends store roll scope) {b : Bound}
    (hb : b.symbol.uri = scope.uri) : (s.take b).Extends store roll scope := by
  have hd := (s.drained_take b).trans h.scope
  have hu := Scope.uri_of_drained h.scope
  have hr : (s.take b).roll = s.roll ++
      [⟨(s.store.enroll b.symbol !s.scope.isLibrary).2.1, b.symbol.uri, !s.scope.isLibrary⟩] := by
    unfold Session.roll
    rw [Scope.uri_of_drained (s.drained_take b), Scope.isLibrary_of_drained (s.drained_take b), hb,
      ← hu]
    show List.map _ (s.ids ++ [_]) = _
    rw [List.map_append]
    rfl
  refine ⟨hd, ?_, fun id x hx => ?_⟩
  · rw [hr, ← List.append_assoc]
    exact h.lists.enroll b.symbol _
  · have hx := h.old id x hx
    show (s.store.enroll b.symbol _).1.symbol? id = some x
    rw [h.lists.get?_enroll, if_neg, hx]
    rintro rfl
    rw [h.lists.symbol?_enroll_fresh] at hx
    cases hx

theorem Session.Extends.takeAll (h : s.Extends store roll scope) {bound : List Bound}
    (hb : ∀ b ∈ bound, b.symbol.uri = scope.uri) :
    (bound.foldl Session.take s).Extends store roll scope := by
  induction bound generalizing s with
  | nil => exact h
  | cons b bound ih =>
    rw [List.forall_mem_cons] at hb
    exact ih (h.take hb.1) hb.2

/-- What is known when the next statement of a session is bound. -/
def Session.context (tree : Tree) (options : Options) (s : Session) : Context :=
  { tree, scope := s.scope, store := s.store, options }

theorem Session.Extends.bindStatement (h : s.Extends store roll scope) (tree : Tree)
    (options : Options) (statement : Slot) :
    (s.bindStatement tree options statement).Extends store roll scope := by
  have h' : ({ s with diagnostics := s.diagnostics ++
      ((s.context tree options).bind statement).2 } : Session).Extends store roll scope :=
    ⟨h.scope, h.lists, h.old⟩
  refine h'.takeAll fun b hb => ?_
  exact (Context.uri_of_mem_bind hb).trans (Scope.uri_of_drained h.scope)

theorem Session.Extends.bindAll (h : s.Extends store roll scope) (tree : Tree) (options : Options)
    (statements : List Slot) :
    (statements.foldl (Session.bindStatement tree options) s).Extends store roll scope := by
  induction statements generalizing s with
  | nil => exact h
  | cons statement statements ih => exact ih (h.bindStatement tree options statement)

/-! ## What waits -/

/-- Whatever waits for a name has waited before or belongs to the session. -/
def Session.Adds (s : Session) (before : List WaitingReference) (n : String) : Prop :=
  ∀ r ∈ s.scope.queueOf n, r ∈ before ∨ r.symbol ∈ s.ids

/-- Whatever waits for a name belongs to the session. -/
def Session.Owns (s : Session) (n : String) : Prop := ∀ r ∈ s.scope.queueOf n, r.symbol ∈ s.ids

section Adds

variable {n : String} {before : List WaitingReference}

theorem Session.owns_iff : s.Owns n ↔ s.Adds [] n := by simp [Owns, Adds]

theorem Session.Adds.take (h : s.Adds before n) (b : Bound) : (s.take b).Adds before n := by
  intro r hr
  rw [s.ids_take, List.mem_append, List.mem_singleton]
  rcases Scope.mem_queueOf_awaitAll _ _ _ hr with hr | hid
  · exact (h r hr).imp_right .inl
  · exact .inr (.inr hid)

theorem Session.Owns.take (h : s.Owns n) (b : Bound) : (s.take b).Owns n :=
  owns_iff.mpr ((owns_iff.mp h).take b)

theorem Session.Adds.bindStatement (h : s.Adds before n) (tree : Tree) (options : Options)
    (statement : Slot) : (s.bindStatement tree options statement).Adds before n := by
  have h' : Adds { s with diagnostics := s.diagnostics ++
      ((s.context tree options).bind statement).2 } before n := h
  exact List.foldlRecOn (motive := fun s : Session => s.Adds before n) _ _ h'
    fun _ ht b _ => ht.take b

theorem Session.Adds.bindAll (h : s.Adds before n) (tree : Tree) (options : Options)
    (statements : List Slot) :
    (statements.foldl (Session.bindStatement tree options) s).Adds before n :=
  List.foldlRecOn (motive := fun s : Session => s.Adds before n) _ _ h fun _ ht statement _ =>
    ht.bindStatement tree options statement

end Adds

/-! ## A unit -/

variable (p : Project) (tree : Tree) (scope : Scope)

/-- The session in which a unit is bound. -/
def session : Session :=
  tree.statements.foldl (Session.bindStatement tree p.options)
    { store := p.store, scope := p.unitScope tree scope }

/-- The project with a new unit, before waiting imports are looked for. -/
def enter : Project :=
  let s := p.session tree scope
  { p with
    store := s.store
    units := p.units.insert scope.uri ⟨s.scope, s.ids⟩
    graph := p.graph.replaceImports scope.uri s.imported }

theorem bind_eq :
    let p' := (p.unload scope.uri).1.enter tree scope
    (p.bind tree scope).1 = (p'.resolveFound (p'.findable scope.uri)).1 := rfl

theorem ids_bind :
    (p.bind tree scope).2.1 = ((p.unload scope.uri).1.session tree scope).ids := rfl

variable {p} {tree} {scope}

theorem extends_session (h : p.store.Lists p.roll) :
    (p.session tree scope).Extends p.store p.roll (p.unitScope tree scope) := by
  have hs := Session.extends_start h (p.unitScope tree scope)
  exact hs.bindAll tree p.options tree.statements

/-- Declaring names changes nothing but the names that are declared. -/
theorem declareAll_eq (tree : Tree) (s : Scope) :
    declareAll tree s = { s with locals := (declareAll tree s).locals } := by
  unfold declareAll
  induction tree.statements.flatMap tree.declaredNames generalizing s with
  | nil => rfl
  | cons n ns ih => exact ih _

theorem uri_unitScope : (p.unitScope tree scope).uri = scope.uri := by
  rw [unitScope, declareAll_eq]

theorem waiting_unitScope : (p.unitScope tree scope).waiting = scope.waiting := by
  rw [unitScope, declareAll_eq]

theorem adds_session (n : String) : (p.session tree scope).Adds (scope.queueOf n) n := by
  have hs : ({ store := p.store, scope := p.unitScope tree scope } : Session).Adds
      (scope.queueOf n) n := by
    intro r hr
    rw [Scope.queueOf, waiting_unitScope] at hr
    exact .inl hr
  exact hs.bindAll tree p.options tree.statements

/-- Where nothing has waited before, whatever waits belongs to the session. -/
theorem owns_session {n : String} (h : scope.queueOf n = []) : (p.session tree scope).Owns n := by
  have ha : (p.session tree scope).Adds (scope.queueOf n) n := p.adds_session n
  rw [h] at ha
  exact Session.owns_iff.mpr ha

end Project

end Bindery
