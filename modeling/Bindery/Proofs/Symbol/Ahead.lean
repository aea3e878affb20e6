import Mathlib.Data.List.Perm.Basic
import Mathlib.Tactic.SplitIfs
import Bindery.Proofs.Project.Supply

/-!
# Symbols that wait and symbols that do not

The same declaration, once with an import that waits and once with the import known from the
start, side by side while other imports are found.

* `Beside`: the dependencies of the one and of the other.
* `Symbol.Ahead`: what the second symbol has and the first waits for.
* **`Symbol.Ahead.settled`**: other late imports keep the two side by side.
* **`Symbol.Ahead.table_iff`**, **`Symbol.Ahead.edges_iff`**: when the two are alike in the end.
-/

namespace Bindery

/-! ## Dependencies side by side -/

/-- Up to order, `c` has the dependency `e` besides those of `a`; or else `a` has another one with
the same target where `c` has `e`. -/
def Beside (e : Dependency) (a c : List Dependency) : Prop :=
  c.Perm (e :: a) ∨
    ∃ x l, x.target = e.target ∧ x ≠ e ∧ a.Perm (x :: l) ∧ c.Perm (e :: l)

section Beside

variable {e y : Dependency} {a c : List Dependency}

theorem Beside.mem_target (h : Beside e a c) {t : String} (ht : t ≠ e.target) :
    t ∈ a.map Dependency.target ↔ t ∈ c.map Dependency.target := by
  rcases h with hc | ⟨x, l, hx, -, ha, hc⟩
  · rw [(hc.map _).mem_iff, List.map_cons, List.mem_cons, or_iff_right ht]
  · rw [(ha.map _).mem_iff, (hc.map _).mem_iff, List.map_cons, List.map_cons, List.mem_cons,
      List.mem_cons, hx]

theorem Beside.target_mem (h : Beside e a c) : e.target ∈ c.map Dependency.target := by
  have he : ∀ {l}, c.Perm (e :: l) → e.target ∈ c.map Dependency.target := fun hc =>
    List.mem_map_of_mem (hc.mem_iff.mpr List.mem_cons_self)
  rcases h with hc | ⟨x, l, -, -, -, hc⟩
  · exact he hc
  · exact he hc

theorem Beside.append (h : Beside e a c) (y : Dependency) : Beside e (a ++ [y]) (c ++ [y]) := by
  have happ : ∀ {l : List Dependency} {x m}, l.Perm (x :: m) → (l ++ [y]).Perm (x :: (m ++ [y])) :=
    fun hl => hl.append_right [y]
  rcases h with hc | ⟨x, l, hx, hne, ha, hc⟩
  · exact .inl (happ hc)
  · exact .inr ⟨x, l ++ [y], hx, hne, happ ha, happ hc⟩

theorem Beside.append_left (h : Beside e a c) (hy : y ≠ e) (ht : y.target = e.target)
    (ha : e.target ∉ a.map Dependency.target) : Beside e (a ++ [y]) c := by
  rcases h with hc | ⟨x, l, hx, -, hp, -⟩
  · exact .inr ⟨y, a, ht, hy, List.perm_append_comm, hc⟩
  · refine absurd ?_ ha
    rw [(hp.map _).mem_iff, List.map_cons, hx]
    exact List.mem_cons_self

/-- With `e` added the two sides agree, unless its target was there before. -/
theorem Beside.perm_iff (h : Beside e a c) :
    (if e.target ∈ a.map Dependency.target then a else a ++ [e]).Perm c ↔
      e.target ∉ a.map Dependency.target := by
  by_cases ht : e.target ∈ a.map Dependency.target
  · rw [if_pos ht]
    refine ⟨fun hp => ?_, fun hn => absurd ht hn⟩
    rcases h with hc | ⟨x, l, -, hne, ha, hc⟩
    · have hlen := (hp.trans hc).length_eq
      simp at hlen
    · have hcount := (ha.symm.trans (hp.trans hc)).count_eq e
      rw [List.count_cons_self, List.count_cons_of_ne hne] at hcount
      omega
  · rw [if_neg ht]
    refine ⟨fun _ => ht, fun _ => ?_⟩
    rcases h with hc | ⟨x, l, hx, -, ha, -⟩
    · exact (List.perm_append_comm.trans hc.symm)
    · refine absurd ?_ ht
      rw [(ha.map _).mem_iff, List.map_cons, hx]
      exact List.mem_cons_self

end Beside

/-! ## What a late import does to a symbol -/

section Settled

variable (n target source : String) (parent : Option SymbolId) (s : Symbol) (r : WaitingReference)

theorem edges_addEdge (y : Dependency) : (s.addEdge y).edges =
    if y.target = s.qualified ∨ y.target ∈ s.edges.map Dependency.target then s.edges
    else s.edges ++ [y] := by
  unfold Symbol.addEdge
  split_ifs <;> rfl

theorem edges_settled : (Store.settled n target source parent s r).edges =
    if target = s.qualified ∨ target ∈ s.edges.map Dependency.target then s.edges
    else s.edges ++ [⟨target, .otherUnit source, r.strong⟩] := edges_addEdge _ _

theorem table_settled : (Store.settled n target source parent s r).table =
    s.table.modify n fun m => { m with replacement := some target } := by
  show (Symbol.addEdge _ _).table = _
  unfold Symbol.addEdge
  split_ifs <;> rfl

theorem loaded_settled : (Store.settled n target source parent s r).loaded =
    s.loaded.insert n (some target) := by
  show (Symbol.addEdge _ _).loaded = _
  unfold Symbol.addEdge
  split_ifs <;> rfl

end Settled

/-! ## Symbols side by side -/

namespace Symbol

/-- Nothing waits for `name` in the first symbol, and the second has the same references. -/
structure Even (name : String) (a c : Symbol) : Prop where
  bare : a.bare = c.bare
  table : a.table = c.table
  edges : a.edges = c.edges
  settled : a.loaded.get? name ≠ some none

/-- The first symbol waits for `name`. In the second it is known to mean the target of `e`, which is
written where `name` stands if `written` says so. -/
structure Ahead (name : String) (e : Dependency) (written : Bool) (a c : Symbol) : Prop where
  bare : a.bare = c.bare
  waits : a.loaded.get? name = some none
  table : c.table = a.table.modify name fun m =>
    { m with replacement := if written then some e.target else none }
  edges : if e.target = a.qualified then a.edges = c.edges else Beside e a.edges c.edges

variable {name : String} {e : Dependency} {written : Bool} {a c : Symbol}

section Settle

variable {n source : String} (hn : n ≠ name) (target : String) (parent : Option SymbolId)
  (r : WaitingReference)

include hn

theorem Even.settle (h : Even name a c) :
    Even name (Store.settled n target source parent a r)
      (Store.settled n target source parent c r) := by
  refine ⟨?_, ?_, ?_, ?_⟩
  · rw [Store.bare_settled, Store.bare_settled, h.bare]
  · rw [table_settled, table_settled, h.table]
  · rw [edges_settled, edges_settled, h.edges, Symbol.qualified_of_bare h.bare]
  · rw [loaded_settled, Table.get?_insert, if_neg hn.symm]
    exact h.settled

/-- **Other late imports** keep the two side by side. -/
theorem Ahead.settle (h : Ahead name e written a c)
    (hs : ∀ strong, (⟨target, .otherUnit source, strong⟩ : Dependency) ≠ e) :
    Ahead name e written (Store.settled n target source parent a r)
      (Store.settled n target source parent c r) := by
  have hq := Symbol.qualified_of_bare h.bare
  have hqa : (Store.settled n target source parent a r).qualified = a.qualified :=
    Symbol.qualified_of_bare (Store.bare_settled a r)
  refine ⟨?_, ?_, ?_, ?_⟩
  · rw [Store.bare_settled, Store.bare_settled, h.bare]
  · rw [loaded_settled, Table.get?_insert, if_neg hn.symm]
    exact h.waits
  · rw [table_settled, table_settled, h.table, Table.modify_comm hn]
  · have he := h.edges
    rw [hqa, edges_settled, edges_settled, ← hq]
    by_cases hown : e.target = a.qualified
    · rw [if_pos hown] at he
      rw [if_pos hown, he]
    rw [if_neg hown] at he
    rw [if_neg hown]
    by_cases ht : target = a.qualified
    · rwa [if_pos (.inl ht), if_pos (.inl ht)]
    by_cases hte : target = e.target
    · -- The second symbol has that target already; the first may get it now, in place of `e`.
      rw [if_pos (c := _ ∨ target ∈ c.edges.map _) (.inr (hte ▸ he.target_mem))]
      split_ifs with ha
      · exact he
      · rw [not_or, hte] at ha
        exact he.append_left (hs _) hte ha.2
    · by_cases ha : target ∈ a.edges.map Dependency.target
      · rw [if_pos (.inr ha), if_pos (.inr ((he.mem_target hte).mp ha))]
        exact he
      · rw [if_neg (not_or.mpr ⟨ht, ha⟩),
          if_neg (not_or.mpr ⟨ht, fun hc => ha ((he.mem_target hte).mpr hc)⟩)]
        exact he.append _

end Settle

/-! ## When the two are alike in the end -/

section Supply

variable {target source : String} {r : WaitingReference}
  (h : Ahead name ⟨target, .otherUnit source, r.strong⟩ written a c) (parent : Option SymbolId)

include h

/-- **The tables** are alike in the end, unless the name has places and is written at none. -/
theorem Ahead.table_iff : (Store.settled name target source parent a r).table = c.table ↔
    (name ∈ a.table.keys → written = true) := by
  rw [table_settled, h.table]
  constructor
  · intro heq hk
    obtain ⟨m, hm⟩ := Table.mem_keys.mp hk
    have hget := congrArg (fun t => (t.get? name).map Mentions.replacement) heq
    simp only [Table.get?_modify, if_true, hm, Option.map_some, Option.some.injEq] at hget
    by_contra hw
    rw [if_neg hw] at hget
    cases hget
  · intro hw
    refine Table.ext_get? (by simp only [Table.keys_modify]) fun k => ?_
    rw [Table.get?_modify, Table.get?_modify]
    by_cases hk : k = name
    · subst hk
      rw [if_pos rfl, if_pos rfl]
      cases hm : a.table.get? k with
      | none => rfl
      | some m => rw [hw (Table.mem_keys.mpr ⟨m, hm⟩), if_pos rfl]
    · rw [if_neg hk, if_neg hk]

/-- **The dependencies** are alike in the end, unless there was one with that target before. -/
theorem Ahead.edges_iff : (Store.settled name target source parent a r).edges.Perm c.edges ↔
    (target = a.qualified ∨ ∀ d ∈ a.edges, d.target ≠ target) := by
  have he := h.edges
  rw [edges_settled]
  by_cases hq : target = a.qualified
  · rw [if_pos hq] at he
    rw [if_pos (.inl hq), he]
    exact iff_of_true (List.Perm.refl _) (.inl hq)
  · rw [if_neg hq] at he
    have hp := he.perm_iff
    simp only [hq, false_or]
    refine hp.trans ?_
    simp [List.mem_map]

end Supply

end Symbol

end Bindery
