import Bindery.Roster

/-!
# Reachability

What can be reached in a graph given by the successors of each vertex.

* `Reaches`: a path of any length leads from one vertex to another.
* `closure`: a work list that visits every vertex at most once.
* **`reaches_of_mem_closure`**: it finds nothing but what can be reached.
-/

namespace Bindery

variable {α : Type} [DecidableEq α]

omit [DecidableEq α] in
/-- A path along successors leads from `a` to the last index. -/
inductive Reaches (next : α → List α) (a : α) : α → Prop where
  | refl : Reaches next a a
  | step {b c : α} : Reaches next a b → c ∈ next b → Reaches next a c

/-- Visit the vertices of a work list, and those that are met for the first time on the way. Every
vertex enters the list once, so the number of vertices bounds the number of rounds. -/
def visitAll (next : α → List α) : Nat → Roster α → List α → Roster α
  | 0, seen, _ => seen
  | _ + 1, seen, [] => seen
  | rounds + 1, seen, v :: todo =>
    let seen' := seen.insertAll (next v)
    visitAll next rounds seen' (seen'.toList.drop seen.size ++ todo)

/-- The vertices that can be reached from `a`, itself included, in a graph with at most `count`
vertices. -/
def closure (next : α → List α) (count : Nat) (a : α) : Roster α :=
  visitAll next (count + 1) (Roster.empty.insert a) [a]

theorem reaches_of_mem_visitAll {next : α → List α} {a : α} (rounds : Nat) {seen : Roster α}
    {todo : List α} (hs : ∀ x ∈ seen, Reaches next a x) (ht : ∀ x ∈ todo, x ∈ seen) {x : α}
    (h : x ∈ visitAll next rounds seen todo) : Reaches next a x := by
  fun_induction visitAll next rounds seen todo with
  | case1 => exact hs x h
  | case2 => exact hs x h
  | case3 seen rounds v todo seen' ih =>
    have hv : Reaches next a v := hs v (ht v List.mem_cons_self)
    refine ih (fun y hy => ?_) (fun y hy => ?_) h
    · rcases Roster.mem_insertAll.1 hy with hy | hy
      · exact hs y hy
      · exact hv.step hy
    · rcases List.mem_append.1 hy with hy | hy
      · exact List.mem_of_mem_drop hy
      · exact Roster.mem_insertAll.2 (Or.inl (ht y (List.mem_cons_of_mem _ hy)))

/-- **The closure holds only what can be reached.** -/
theorem reaches_of_mem_closure {next : α → List α} {count : Nat} {a x : α}
    (h : x ∈ closure next count a) : Reaches next a x :=
  reaches_of_mem_visitAll (count + 1) (fun y hy => by
    rcases Roster.mem_insert.1 hy with hy | rfl
    · exact absurd hy (Roster.not_mem_empty y)
    · exact .refl) (fun y hy => by simp_all) h

end Bindery
