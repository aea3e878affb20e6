import Mathlib.Data.List.Nodup
import Mathlib.Data.List.Perm.Subperm
import Mathlib.Order.Nat
import Bindery.Graph.Components
import Bindery.Proofs.Graph.Affected

/-!
# The groups that a walk finds

A walk closes a group when it leaves a vertex from which nothing below it on the stack can be
reached: the group is that vertex, and what is on the stack above it.

* `IsComponent`: vertices that can be reached from one another, all of them.
* `ComponentSearch.Sound`: what holds whenever an edge has been followed.
* `ComponentSearch.IsLow`: what the least number of a vertex says.
* `ComponentSearch.Visiting`, `ComponentSearch.Visited`: what holds while the edges from a vertex
  are followed, and when the walk leaves it.
* **`ComponentSearch.exists_connect`**: a walk that may be long enough does not break off.
* **`exists_components`**: the groups are those of the graph, whatever the depth.
-/

namespace Bindery

variable {next : String → List String} {vertices path above new done ends ends' : List String}
  {v w x y : String} {k n depth : Nat}

theorem Reaches.trans {α : Type} {next : α → List α} {a b c : α} (h : Reaches next a b)
    (h' : Reaches next b c) : Reaches next a c := by
  induction h' with
  | refl => exact h
  | step _ hc ih => exact ih.step hc

/-- **Vertices that can be reached from one another**, and all of those. -/
structure IsComponent (next : String → List String) (group : List String) : Prop where
  ne_nil : group ≠ []
  mem_iff : ∀ a ∈ group, ∀ b, b ∈ group ↔ Reaches next a b ∧ Reaches next b a

namespace ComponentSearch

variable {s t u : ComponentSearch}

/-! ## The operations -/

theorem numberIn_of_get? {t : Table Nat} (h : t.get? v = some n) : numberIn t v = n := by
  rw [numberIn, h, Option.getD_some]

theorem mem_keys_enter : x ∈ (s.enter v).index.keys ↔ x ∈ s.index.keys ∨ x = v := by
  show x ∈ (s.index.insert v s.count).keys ↔ _
  rw [Table.keys_insert]
  split_ifs with h
  · exact ⟨.inl, fun hx => hx.elim id fun e => e ▸ h⟩
  · rw [List.mem_append, List.mem_singleton]

theorem get?_index_enter :
    (s.enter v).index.get? x = if x = v then some s.count else s.index.get? x :=
  Table.get?_insert ..

theorem get?_low_enter : (s.enter v).low.get? x = if x = v then some s.count else s.low.get? x :=
  Table.get?_insert ..

theorem get?_low_lower : (s.lower v n).low.get? x =
    if x = v then some (min (numberIn s.low v) n) else s.low.get? x :=
  Table.get?_insert ..

theorem popThrough_append {rest : List String} (h : v ∉ above) :
    popThrough v (above ++ v :: rest) = (above ++ [v], rest) := by
  induction above with
  | nil => rw [List.nil_append, popThrough, if_pos rfl, List.nil_append]
  | cons x above ih =>
    rw [List.mem_cons, not_or] at h
    rw [List.cons_append, popThrough, if_neg (Ne.symm h.1), ih h.2, List.cons_append]

theorem mem_foldl_erase {group : List String} {r : Roster String} :
    x ∈ group.foldl Roster.erase r ↔ x ∈ r ∧ x ∉ group := by
  induction group generalizing r with
  | nil => simp
  | cons y group ih =>
    rw [List.foldl_cons, ih, Roster.mem_erase, List.mem_cons, not_or, and_assoc]

/-! ## What holds throughout -/

/-- **What holds whenever an edge has been followed.** The edges from the vertices of `path` are
still being followed; those from all others that have been met have been. -/
structure Sound (next : String → List String) (vertices path : List String) (s : ComponentSearch) :
    Prop where
  onStack : ∀ v, v ∈ s.onStack ↔ v ∈ s.stack
  met : ∀ v, v ∈ s.index.keys ↔ v ∈ s.stack ∨ v ∈ s.found.flatten
  nodup : (s.stack ++ s.found.flatten).Nodup
  known : s.index.keys ⊆ vertices
  numbered : ∀ v ∈ s.index.keys, numberIn s.index v < s.count
  walked : path.Sublist s.stack
  /-- What is on the stack belongs to the group of a vertex that has not been left. -/
  returns : ∀ v ∈ s.stack, ∃ u ∈ path, Reaches next v u
  followed : ∀ v ∈ s.index.keys, v ∉ path → next v ⊆ s.index.keys
  closed : ∀ v ∈ s.found.flatten, next v ⊆ s.found.flatten
  components : ∀ group ∈ s.found, IsComponent next group

theorem sound_empty (next : String → List String) (vertices : List String) :
    Sound next vertices [] {} where
  onStack _ := ⟨fun h => absurd h (Roster.not_mem_empty _), fun h => absurd h List.not_mem_nil⟩
  met _ := ⟨fun h => absurd h List.not_mem_nil, fun h => h.elim id id⟩
  nodup := List.nodup_nil
  known := List.nil_subset _
  numbered _ h := absurd h List.not_mem_nil
  walked := List.nil_sublist _
  returns _ h := absurd h List.not_mem_nil
  followed _ h := absurd h List.not_mem_nil
  closed _ h := absurd h List.not_mem_nil
  components _ h := absurd h List.not_mem_nil

theorem Sound.mem_keys_of_mem_stack (h : s.Sound next vertices path) (hx : x ∈ s.stack) :
    x ∈ s.index.keys := (h.met x).mpr (.inl hx)

theorem Sound.number_lt (h : s.Sound next vertices path) (hx : x ∈ s.stack) :
    numberIn s.index x < s.count := h.numbered x (h.mem_keys_of_mem_stack hx)

/-- A walk that has come back to where it began has closed all groups. -/
theorem Sound.stack_eq_nil (h : s.Sound next vertices []) : s.stack = [] :=
  List.eq_nil_iff_forall_not_mem.mpr fun x hx => by
    obtain ⟨u, hu, -⟩ := h.returns x hx
    cases hu

theorem Sound.enter (h : s.Sound next vertices path) (hv : v ∈ vertices)
    (hnew : v ∉ s.index.keys) : (s.enter v).Sound next vertices (v :: path) where
  onStack x := by
    show x ∈ s.onStack.insert v ↔ x ∈ v :: s.stack
    rw [Roster.mem_insert, h.onStack, List.mem_cons, or_comm]
  met x := by
    rw [mem_keys_enter, h.met]
    show _ ↔ x ∈ v :: s.stack ∨ x ∈ s.found.flatten
    rw [List.mem_cons]
    tauto
  nodup := List.nodup_cons.mpr ⟨fun hm => hnew ((h.met v).mpr (List.mem_append.mp hm)), h.nodup⟩
  known x hx := (mem_keys_enter.mp hx).elim (fun hx => h.known hx) fun e => e ▸ hv
  numbered x hx := by
    rw [numberIn, get?_index_enter]
    show _ < s.count + 1
    split_ifs with he
    · exact Nat.lt_succ_self _
    · exact Nat.lt_succ_of_lt (h.numbered x ((mem_keys_enter.mp hx).resolve_right he))
  walked := h.walked.cons_cons v
  returns x hx := by
    rcases List.mem_cons.mp hx with rfl | hx
    · exact ⟨x, List.mem_cons_self, .refl⟩
    · obtain ⟨u, hu, hr⟩ := h.returns x hx
      exact ⟨u, List.mem_cons_of_mem v hu, hr⟩
  followed x hx hp := by
    rw [List.mem_cons, not_or] at hp
    exact fun y hy => mem_keys_enter.mpr
      (.inl (h.followed x ((mem_keys_enter.mp hx).resolve_right hp.1) hp.2 hy))
  closed := h.closed
  components := h.components

theorem Sound.lower (h : s.Sound next vertices path) : (s.lower v n).Sound next vertices path :=
  ⟨h.onStack, h.met, h.nodup, h.known, h.numbered, h.walked, h.returns, h.followed, h.closed,
    h.components⟩

/-- **A later state of a walk**: what has been met keeps its numbers. -/
structure Grows (s t : ComponentSearch) : Prop where
  index : ∀ v ∈ s.index.keys, t.index.get? v = s.index.get? v
  low : ∀ v ∈ s.index.keys, t.low.get? v = s.low.get? v
  count : s.count ≤ t.count

theorem Grows.mem_keys (h : s.Grows t) (hx : x ∈ s.index.keys) : x ∈ t.index.keys := by
  obtain ⟨n, hn⟩ := Table.mem_keys.mp hx
  exact Table.mem_keys.mpr ⟨n, (h.index x hx).trans hn⟩

theorem Grows.number (h : s.Grows t) (hx : x ∈ s.index.keys) :
    numberIn t.index x = numberIn s.index x := by rw [numberIn, h.index x hx, numberIn]

theorem Grows.refl (s : ComponentSearch) : s.Grows s :=
  ⟨fun _ _ => rfl, fun _ _ => rfl, Nat.le_refl _⟩

theorem Grows.trans (h : s.Grows t) (h' : t.Grows u) : s.Grows u where
  index v hv := (h'.index v (h.mem_keys hv)).trans (h.index v hv)
  low v hv := (h'.low v (h.mem_keys hv)).trans (h.low v hv)
  count := h.count.trans h'.count

theorem grows_enter (hnew : v ∉ s.index.keys) : s.Grows (s.enter v) where
  index x hx := by rw [get?_index_enter, if_neg fun e : x = v => hnew (e ▸ hx)]
  low x hx := by rw [get?_low_enter, if_neg fun e : x = v => hnew (e ▸ hx)]
  count := Nat.le_succ _

/-! ## Least numbers -/

/-- **What the least number of a vertex says** about the stack of `s`, after which the vertex was
met: it is that of a vertex on this stack that can be reached, if it is not of a later one; and no
vertex among `ends` that is on this stack has a lesser one. -/
structure IsLow (next : String → List String) (s : ComponentSearch) (v : String)
    (ends : List String) (k : Nat) : Prop where
  reached : k = s.count ∨ ∃ y ∈ s.stack, numberIn s.index y = k ∧ Reaches next v y
  least : ∀ y ∈ ends, y ∈ s.stack → k ≤ numberIn s.index y

theorem IsLow.le (h : IsLow next s v ends k) (hs : s.Sound next vertices path) : k ≤ s.count := by
  rcases h.reached with rfl | ⟨y, hy, rfl, -⟩
  · exact Nat.le_refl _
  · exact (hs.number_lt hy).le

theorem IsLow.min (h : IsLow next s v ends k) (hs : s.Sound next vertices path)
    (hn : s.count ≤ n ∨ ∃ y ∈ s.stack, numberIn s.index y = n ∧ Reaches next v y)
    (hends : ∀ y ∈ ends', y ∈ s.stack → y ∈ ends ∨ n ≤ numberIn s.index y) :
    IsLow next s v ends' (min k n) where
  reached := by
    rcases Nat.le_total k n with hkn | hkn
    · rw [Nat.min_eq_left hkn]
      exact h.reached
    · rw [Nat.min_eq_right hkn]
      exact hn.imp (fun hle => Nat.le_antisymm (hkn.trans (h.le hs)) hle) id
  least y hy hys := by
    rcases hends y hy hys with he | hle
    · exact (Nat.min_le_left k n).trans (h.least y he hys)
    · exact (Nat.min_le_right k n).trans hle

/-! ## While a vertex is being visited -/

/-- **A vertex on the way.** It was entered in the state `s`; by now, what is `above` has been met
from it, and put on the stack on top of it. -/
structure Entered (next : String → List String) (vertices path : List String) (v : String)
    (s : ComponentSearch) (above : List String) (t : ComponentSearch) : Prop where
  before : s.Sound next vertices path
  fresh : v ∉ s.index.keys
  leads : ∀ p ∈ path, Reaches next p v
  grows : s.Grows t
  sound : t.Sound next vertices (v :: path)
  stack : t.stack = above ++ v :: s.stack
  number : t.index.get? v = some s.count
  upper : ∀ x ∈ above, Reaches next v x ∧ s.count ≤ numberIn t.index x

/-- **A vertex that has been left**, after it was entered in `s`. If its group is not complete, it
is `above` the old stack with those that were met from it. -/
structure Visited (next : String → List String) (vertices path : List String) (v : String)
    (s : ComponentSearch) (above : List String) (t : ComponentSearch) : Prop where
  grows : s.Grows t
  sound : t.Sound next vertices path
  stack : t.stack = above ++ s.stack
  met : v ∈ t.index.keys
  low : ∃ k, t.low.get? v = some k ∧ IsLow next s v (above.flatMap next) k
  upper : ∀ x ∈ above, Reaches next v x ∧ s.count ≤ numberIn t.index x

/-- **While the edges from a vertex are followed**: those to `done` have been. -/
structure Visiting (next : String → List String) (vertices path : List String) (v : String)
    (s : ComponentSearch) (done above : List String) (t : ComponentSearch) : Prop
    extends Entered next vertices path v s above t where
  low : ∃ k, t.low.get? v = some k ∧ IsLow next s v (done ++ above.flatMap next) k
  met : ∀ w ∈ done, w ∈ t.index.keys

theorem Entered.mem_keys (h : Entered next vertices path v s above t) : v ∈ t.index.keys :=
  Table.mem_keys.mpr ⟨s.count, h.number⟩

theorem Entered.stack_eq (h : Entered next vertices path v s above t) :
    t.stack = (above ++ [v]) ++ s.stack := by rw [h.stack, List.append_cons]

theorem Entered.mem_stack (h : Entered next vertices path v s above t) (hx : x ∈ t.stack) :
    s.count ≤ numberIn t.index x ∨
      x ∈ s.stack ∧ numberIn t.index x = numberIn s.index x := by
  rw [h.stack, List.mem_append, List.mem_cons] at hx
  rcases hx with hx | rfl | hx
  · exact .inl (h.upper x hx).2
  · exact .inl (numberIn_of_get? h.number).ge
  · exact .inr ⟨hx, h.grows.number (h.before.mem_keys_of_mem_stack hx)⟩

theorem Entered.mem_stack_of_mem (h : Entered next vertices path v s above t) (hx : x ∈ s.stack) :
    x ∈ t.stack := by
  rw [h.stack]
  exact List.mem_append_right _ (List.mem_cons_of_mem v hx)

theorem Entered.visited (h : Entered next vertices path v s above t) (hw : w ∈ next v)
    (hu : Visited next vertices (v :: path) w t new u) :
    Entered next vertices path v s (new ++ above) u where
  before := h.before
  fresh := h.fresh
  leads := h.leads
  grows := h.grows.trans hu.grows
  sound := hu.sound
  stack := by rw [hu.stack, h.stack, List.append_assoc]
  number := (hu.grows.index v h.mem_keys).trans h.number
  upper x hx := by
    rcases List.mem_append.mp hx with hx | hx
    · obtain ⟨hr, hn⟩ := hu.upper x hx
      exact ⟨(Reaches.refl.step hw).trans hr, h.grows.count.trans hn⟩
    · have hm : x ∈ t.index.keys :=
        h.sound.mem_keys_of_mem_stack (h.stack ▸ List.mem_append_left _ hx)
      rw [hu.grows.number hm]
      exact h.upper x hx

theorem Entered.lower (h : Entered next vertices path v s above t) :
    Entered next vertices path v s above (t.lower v n) where
  before := h.before
  fresh := h.fresh
  leads := h.leads
  grows := {
    index := h.grows.index
    low := fun x hx => by
      rw [get?_low_lower, if_neg fun e : x = v => h.fresh (e ▸ hx), h.grows.low x hx]
    count := h.grows.count }
  sound := h.sound.lower
  stack := h.stack
  number := h.number
  upper := h.upper

theorem visiting_enter (h : s.Sound next vertices path) (hv : v ∈ vertices)
    (hnew : v ∉ s.index.keys) (hp : ∀ p ∈ path, Reaches next p v) :
    Visiting next vertices path v s [] [] (s.enter v) where
  before := h
  fresh := hnew
  leads := hp
  grows := grows_enter hnew
  sound := h.enter hv hnew
  stack := rfl
  number := by rw [get?_index_enter, if_pos rfl]
  upper _ hx := absurd hx List.not_mem_nil
  low := ⟨s.count, by rw [get?_low_enter, if_pos rfl], .inl rfl,
    fun _ hy => absurd hy List.not_mem_nil⟩
  met _ hw := absurd hw List.not_mem_nil

/-! ## One edge -/

/-- The edge leads to a vertex on the stack. -/
theorem Visiting.lower (h : Visiting next vertices path v s done above t) (hw : w ∈ next v)
    (hs : w ∈ t.stack) :
    Visiting next vertices path v s (done ++ [w]) above (t.lower v (numberIn t.index w)) where
  toEntered := h.toEntered.lower
  low := by
    obtain ⟨k, hk, hlow⟩ := h.low
    refine ⟨_, by rw [get?_low_lower, if_pos rfl, numberIn_of_get? hk],
      hlow.min h.before ?_ fun y hy hys => ?_⟩
    · exact (h.mem_stack hs).imp id fun ⟨hws, hn⟩ => ⟨w, hws, hn.symm, Reaches.refl.step hw⟩
    · rw [List.append_assoc, List.mem_append, List.singleton_append, List.mem_cons] at hy
      rcases hy with hy | rfl | hy
      · exact .inl (List.mem_append_left _ hy)
      · exact .inr (h.grows.number (h.before.mem_keys_of_mem_stack hys)).le
      · exact .inl (List.mem_append_right _ hy)
  met x hx := by
    rcases List.mem_append.mp hx with hx | hx
    · exact h.met x hx
    · rw [List.mem_singleton.mp hx]
      exact h.sound.mem_keys_of_mem_stack hs

/-- The edge leads to a vertex whose group is complete. -/
theorem Visiting.pass (h : Visiting next vertices path v s done above t) (hw : w ∈ t.index.keys)
    (hs : w ∉ t.stack) : Visiting next vertices path v s (done ++ [w]) above t where
  toEntered := h.toEntered
  low := by
    obtain ⟨k, hk, hlow⟩ := h.low
    refine ⟨k, hk, hlow.reached, fun y hy hys => hlow.least y ?_ hys⟩
    rw [List.append_assoc, List.mem_append, List.singleton_append, List.mem_cons] at hy
    rcases hy with hy | rfl | hy
    · exact List.mem_append_left _ hy
    · exact absurd (h.mem_stack_of_mem hys) hs
    · exact List.mem_append_right _ hy
  met x hx := by
    rcases List.mem_append.mp hx with hx | hx
    · exact h.met x hx
    · rw [List.mem_singleton.mp hx]
      exact hw

/-- The edge leads to a vertex that was met for the first time. -/
theorem Visiting.visited (h : Visiting next vertices path v s done above t) (hw : w ∈ next v)
    (hnew : w ∉ t.index.keys) (hu : Visited next vertices (v :: path) w t new u) :
    Visiting next vertices path v s (done ++ [w]) (new ++ above)
      (u.lower v (numberIn u.low w)) where
  toEntered := (h.toEntered.visited hw hu).lower
  low := by
    obtain ⟨k, hk, hlow⟩ := h.low
    obtain ⟨n, hn, hlow'⟩ := hu.low
    have hkeep : u.low.get? v = some k := (hu.grows.low v h.mem_keys).trans hk
    refine ⟨_, by rw [get?_low_lower, if_pos rfl, numberIn_of_get? hkeep, numberIn_of_get? hn],
      hlow.min h.before ?_ fun y hy hys => ?_⟩
    · rcases hlow'.reached with rfl | ⟨y, hy, rfl, hr⟩
      · exact .inl h.grows.count
      · exact (h.mem_stack hy).imp id fun ⟨hys, hyn⟩ =>
          ⟨y, hys, hyn.symm, (Reaches.refl.step hw).trans hr⟩
    · rw [List.flatMap_append, List.append_assoc, List.mem_append, List.singleton_append,
        List.mem_cons, List.mem_append] at hy
      rcases hy with hy | rfl | hy | hy
      · exact .inl (List.mem_append_left _ hy)
      · exact absurd (h.sound.mem_keys_of_mem_stack (h.mem_stack_of_mem hys)) hnew
      · refine .inr ((hlow'.least y hy (h.mem_stack_of_mem hys)).trans ?_)
        exact (h.grows.number (h.before.mem_keys_of_mem_stack hys)).le
      · exact .inl (List.mem_append_right _ hy)
  met x hx := by
    rcases List.mem_append.mp hx with hx | hx
    · exact hu.grows.mem_keys (h.met x hx)
    · rw [List.mem_singleton.mp hx]
      exact hu.met

/-- **One edge is followed.** -/
theorem Visiting.follow {visit : ComponentSearch → String → Option ComponentSearch}
    (h : Visiting next vertices path v s done above t) (hw : w ∈ next v)
    (hvisit : w ∉ t.index.keys →
      ∃ u new, visit t w = some u ∧ Visited next vertices (v :: path) w t new u) :
    ∃ u above', ComponentSearch.follow visit v t w = some u ∧
      Visiting next vertices path v s (done ++ [w]) above' u := by
  unfold ComponentSearch.follow
  split_ifs with hmet hs
  · exact ⟨_, above, rfl, h.lower hw ((h.sound.onStack w).mp hs)⟩
  · exact ⟨_, above, rfl, h.pass (Table.contains_iff.mp hmet) (mt (h.sound.onStack w).mpr hs)⟩
  · have hnew : w ∉ t.index.keys := mt Table.contains_iff.mpr hmet
    obtain ⟨u, new, hu, hvisited⟩ := hvisit hnew
    exact ⟨_, _, by rw [hu, Option.map_some], h.visited hw hnew hvisited⟩

/-! ## When a vertex is left -/

/-- What is above a vertex on the stack belongs to its group. -/
theorem Entered.reaches (h : Entered next vertices path v s above t) (hx : x ∈ above ++ [v]) :
    Reaches next v x ∧ Reaches next x v := by
  have hstack : x ∈ t.stack := by
    rw [h.stack_eq]
    exact List.mem_append_left _ hx
  constructor
  · rcases List.mem_append.mp hx with hx | hx
    · exact (h.upper x hx).1
    · rw [List.mem_singleton.mp hx]
      exact .refl
  · obtain ⟨u, hu, hr⟩ := h.sound.returns x hstack
    rcases List.mem_cons.mp hu with rfl | hu
    · exact hr
    · exact hr.trans (h.leads u hu)

theorem Entered.not_mem_path (h : Entered next vertices path v s above t) (hx : x ∈ above) :
    x ∉ v :: path := fun hp => by
  have hnd : (above ++ v :: s.stack).Nodup := h.stack ▸ (List.nodup_append.mp h.sound.nodup).1
  exact (List.nodup_append.mp hnd).2.2 x hx x ((h.before.walked.cons_cons v).subset hp) rfl

/-- The edges from a vertex, and from what is above it, have all been followed. -/
theorem Visiting.next_subset (h : Visiting next vertices path v s (next v) above t)
    (hx : x ∈ above ++ [v]) : next x ⊆ t.index.keys := by
  rcases List.mem_append.mp hx with hx | hx
  · exact h.sound.followed x
      (h.sound.mem_keys_of_mem_stack (h.stack ▸ List.mem_append_left _ hx)) (h.not_mem_path hx)
  · rw [List.mem_singleton.mp hx]
    exact h.met

theorem mem_ends (hx : x ∈ above ++ [v]) (hy : y ∈ next x) : y ∈ next v ++ above.flatMap next := by
  rcases List.mem_append.mp hx with hx | hx
  · exact List.mem_append_right _ (List.mem_flatMap.mpr ⟨x, hx, hy⟩)
  · rw [List.mem_singleton.mp hx] at hy
    exact List.mem_append_left _ hy

/-- Nothing below such a vertex can be reached from its group. -/
theorem Visiting.closed (h : Visiting next vertices path v s (next v) above t)
    (hlow : t.low.get? v = some s.count) (hx : x ∈ above ++ [v]) (hy : y ∈ next x) :
    y ∈ above ++ [v] ∨ y ∈ t.found.flatten := by
  obtain ⟨k, hk, hl⟩ := h.low
  obtain rfl : k = s.count := Option.some.inj (hk.symm.trans hlow)
  refine ((h.sound.met y).mp (h.next_subset hx hy)).imp_left fun hstack => ?_
  rw [h.stack_eq] at hstack
  refine (List.mem_append.mp hstack).resolve_right fun hs => ?_
  exact absurd (h.before.number_lt hs) (Nat.not_lt.mpr (hl.least y (mem_ends hx hy) hs))

/-- **A group that is complete.** -/
theorem Visiting.isComponent (h : Visiting next vertices path v s (next v) above t)
    (hlow : t.low.get? v = some s.count) : IsComponent next (above ++ [v]) where
  ne_nil := List.append_ne_nil_of_right_ne_nil _ (List.cons_ne_nil _ _)
  mem_iff a ha b := by
    have hav := h.reaches ha
    refine ⟨fun hb => ?_, fun hab => ?_⟩
    · have hbv := h.reaches hb
      exact ⟨hav.2.trans hbv.1, hbv.2.trans hav.1⟩
    · have hb : b ∈ above ++ [v] ++ t.found.flatten :=
        hab.1.mem_of_closed (List.mem_append_left _ ha) fun x hx y hy => by
          rcases List.mem_append.mp hx with hx | hx
          · exact List.mem_append.mpr (h.closed hlow hx hy)
          · exact List.mem_append_right _ (h.sound.closed x hx hy)
      refine (List.mem_append.mp hb).resolve_right fun hb => ?_
      -- From a group that was complete before, there is no way back.
      have ha' : a ∈ t.found.flatten := hab.2.mem_of_closed hb fun x hx y hy =>
        h.sound.closed x hx hy
      have hstack : a ∈ t.stack := by
        rw [h.stack_eq]
        exact List.mem_append_left _ ha
      exact (List.nodup_append.mp h.sound.nodup).2.2 a hstack a ha' rfl

theorem Visiting.followed (h : Visiting next vertices path v s (next v) above t)
    (hx : x ∈ t.index.keys) (hp : x ∉ path) : next x ⊆ t.index.keys := by
  by_cases hxv : x = v
  · exact hxv ▸ h.met
  · exact h.sound.followed x hx fun hm => (List.mem_cons.mp hm).elim hxv hp

theorem Entered.leave_eq (h : Entered next vertices path v s above t)
    (hlow : t.low.get? v = some s.count) : t.leave v = { t with
      stack := s.stack
      onStack := (above ++ [v]).foldl Roster.erase t.onStack
      found := t.found ++ [above ++ [v]] } := by
  have hv : v ∉ above := fun hm => h.not_mem_path hm List.mem_cons_self
  rw [ComponentSearch.leave, if_pos (hlow.trans h.number.symm), h.stack, popThrough_append hv]

theorem Visiting.sound_leave (h : Visiting next vertices path v s (next v) above t)
    (hlow : t.low.get? v = some s.count) : (t.leave v).Sound next vertices path := by
  have hfound : (t.found ++ [above ++ [v]]).flatten = t.found.flatten ++ (above ++ [v]) := by
    rw [List.flatten_append, List.flatten_singleton]
  have hnd : ((above ++ [v]) ++ s.stack).Nodup :=
    h.stack_eq ▸ (List.nodup_append.mp h.sound.nodup).1
  rw [h.leave_eq hlow]
  exact {
    onStack := fun x => by
      rw [mem_foldl_erase, h.sound.onStack, h.stack_eq, List.mem_append]
      refine ⟨fun hx => hx.1.resolve_left hx.2, fun hx => ⟨.inr hx, fun hg => ?_⟩⟩
      exact (List.nodup_append.mp hnd).2.2 x hg x hx rfl
    met := fun x => by
      rw [h.sound.met, h.stack_eq, hfound]
      simp only [List.mem_append]
      tauto
    nodup := by
      rw [hfound, ← List.append_assoc]
      refine (List.perm_append_comm.trans ?_).nodup_iff.mpr h.sound.nodup
      rw [← List.append_assoc, h.stack_eq]
    known := h.sound.known
    numbered := h.sound.numbered
    walked := h.before.walked
    returns := h.before.returns
    followed := fun x hx hp => h.followed hx hp
    closed := fun x hx y hy => by
      rw [hfound, List.mem_append] at hx ⊢
      rcases hx with hx | hx
      · exact .inl (h.sound.closed x hx hy)
      · exact (h.closed hlow hx hy).symm
    components := fun group hg => by
      rcases List.mem_append.mp hg with hg | hg
      · exact h.sound.components group hg
      · rw [List.mem_singleton.mp hg]
        exact h.isComponent hlow }

theorem Visiting.leave_root (h : Visiting next vertices path v s (next v) above t)
    (hlow : t.low.get? v = some s.count) : Visited next vertices path v s [] (t.leave v) := by
  have hsound := h.sound_leave hlow
  rw [h.leave_eq hlow] at hsound ⊢
  exact {
    grows := ⟨h.grows.index, h.grows.low, h.grows.count⟩
    sound := hsound
    stack := rfl
    met := h.mem_keys
    low := ⟨s.count, hlow, .inl rfl, fun _ hy => absurd hy List.not_mem_nil⟩
    upper := fun _ hx => absurd hx List.not_mem_nil }

theorem Visiting.leave_inner (h : Visiting next vertices path v s (next v) above t)
    (hlow : t.low.get? v ≠ some s.count) :
    Visited next vertices path v s (above ++ [v]) (t.leave v) := by
  have hleave : t.leave v = t := by
    rw [ComponentSearch.leave, if_neg fun e => hlow (e.trans h.number)]
  obtain ⟨k, hk, hl⟩ := h.low
  obtain ⟨z, hz, -, hvz⟩ := hl.reached.resolve_left fun e => hlow (hk.trans (congrArg some e))
  obtain ⟨p, hp, hzp⟩ := h.before.returns z hz
  rw [hleave]
  exact {
    grows := h.grows
    sound := { h.sound with
      walked := h.stack_eq ▸ h.before.walked.trans (List.sublist_append_right _ _)
      returns := fun x hx => by
        obtain ⟨q, hq, hr⟩ := h.sound.returns x hx
        rcases List.mem_cons.mp hq with rfl | hq
        · exact ⟨p, hp, (hr.trans hvz).trans hzp⟩
        · exact ⟨q, hq, hr⟩
      followed := fun x hx hp => h.followed hx hp }
    stack := h.stack_eq
    met := h.mem_keys
    low := by
      refine ⟨k, hk, hl.reached, fun y hy hys => ?_⟩
      obtain ⟨x, hx, hyx⟩ := List.mem_flatMap.mp hy
      exact hl.least y (mem_ends hx hyx) hys
    upper := fun x hx => by
      refine ⟨(h.reaches hx).1, ?_⟩
      rcases List.mem_append.mp hx with hx | hx
      · exact (h.upper x hx).2
      · rw [List.mem_singleton.mp hx, numberIn_of_get? h.number] }

theorem Visiting.leave (h : Visiting next vertices path v s (next v) above t) :
    ∃ above', Visited next vertices path v s above' (t.leave v) := by
  by_cases hlow : t.low.get? v = some s.count
  · exact ⟨_, h.leave_root hlow⟩
  · exact ⟨_, h.leave_inner hlow⟩

/-! ## Whole walks -/

theorem Visiting.foldlM {visit : ComponentSearch → String → Option ComponentSearch}
    (hvisit : ∀ t w, t.Sound next vertices (v :: path) → w ∈ next v → w ∉ t.index.keys →
      ∃ u new, visit t w = some u ∧ Visited next vertices (v :: path) w t new u)
    {todo : List String} (h : Visiting next vertices path v s done above t)
    (hnext : next v = done ++ todo) :
    ∃ u above', todo.foldlM (ComponentSearch.follow visit v) t = some u ∧
      Visiting next vertices path v s (next v) above' u := by
  induction todo generalizing done above t with
  | nil =>
    rw [List.append_nil] at hnext
    exact ⟨t, above, rfl, hnext ▸ h⟩
  | cons w todo ih =>
    have hw : w ∈ next v := by simp [hnext]
    obtain ⟨u, above', hu, hvu⟩ := h.follow hw (hvisit t w h.sound hw)
    rw [List.foldlM_cons, hu]
    exact ih hvu (by simpa using hnext)

/-- **A walk does not break off** as long as it may go through all vertices at once. -/
theorem exists_connect (hv : ∀ v ∈ vertices, next v ⊆ vertices)
    (hd : vertices.length ≤ depth + path.length) (hs : s.Sound next vertices path)
    (hm : v ∈ vertices) (hnew : v ∉ s.index.keys) (hp : ∀ p ∈ path, Reaches next p v) :
    ∃ t above, connect next depth s v = some t ∧ Visited next vertices path v s above t := by
  induction depth generalizing path s v with
  | zero =>
    -- The path would be a list of vertices without repeats that leaves out `v`.
    have hpath : path ⊆ s.stack := hs.walked.subset
    have hvp : v ∉ path := fun hm => hnew (hs.mem_keys_of_mem_stack (hpath hm))
    have hnd : (v :: path).Nodup :=
      List.nodup_cons.mpr ⟨hvp, hs.walked.nodup (List.nodup_append.mp hs.nodup).1⟩
    have hsub : v :: path ⊆ vertices := List.cons_subset.mpr
      ⟨hm, fun x hx => hs.known (hs.mem_keys_of_mem_stack (hpath hx))⟩
    have hlen := (hnd.subperm hsub).length_le
    rw [List.length_cons] at hlen
    omega
  | succ depth ih =>
    have hd' : vertices.length ≤ depth + (v :: path).length := by
      rw [List.length_cons]
      omega
    have hvisit : ∀ t w, t.Sound next vertices (v :: path) → w ∈ next v → w ∉ t.index.keys →
        ∃ u new, connect next depth t w = some u ∧
          Visited next vertices (v :: path) w t new u := fun t w hsound hw hfresh => by
      refine ih hd' hsound (hv v hm hw) hfresh fun p hpv => ?_
      rcases List.mem_cons.mp hpv with rfl | hpv
      · exact Reaches.refl.step hw
      · exact (hp p hpv).step hw
    obtain ⟨t, above, ht, hvt⟩ := (visiting_enter hs hm hnew hp).foldlM hvisit rfl
    obtain ⟨above', hleft⟩ := hvt.leave
    exact ⟨t.leave v, above', by rw [connect, ht, Option.map_some], hleft⟩

theorem exists_visit (hv : ∀ v ∈ vertices, next v ⊆ vertices) (hd : vertices.length ≤ depth)
    (hs : s.Sound next vertices []) (hm : v ∈ vertices) :
    ∃ t, visit next depth s v = some t ∧ t.Sound next vertices [] ∧ s.Grows t ∧
      v ∈ t.index.keys := by
  unfold visit
  split_ifs with hmet
  · exact ⟨s, rfl, hs, .refl s, Table.contains_iff.mp hmet⟩
  · obtain ⟨t, above, ht, hvt⟩ := exists_connect hv hd hs hm (mt Table.contains_iff.mpr hmet)
      fun _ hp => absurd hp List.not_mem_nil
    exact ⟨t, ht, hvt.sound, hvt.grows, hvt.met⟩

theorem exists_visits (hv : ∀ v ∈ vertices, next v ⊆ vertices) (hd : vertices.length ≤ depth)
    {todo : List String} (htodo : todo ⊆ vertices) (hs : s.Sound next vertices []) :
    ∃ t, todo.foldlM (visit next depth) s = some t ∧ t.Sound next vertices [] ∧ s.Grows t ∧
      ∀ v ∈ todo, v ∈ t.index.keys := by
  induction todo generalizing s with
  | nil => exact ⟨s, rfl, hs, .refl s, fun _ hv => absurd hv List.not_mem_nil⟩
  | cons v todo ih =>
    rw [List.cons_subset] at htodo
    obtain ⟨t, ht, hsound, hgrows, hm⟩ := exists_visit hv hd hs htodo.1
    obtain ⟨u, hu, hsound', hgrows', hall⟩ := ih htodo.2 hsound
    refine ⟨u, ?_, hsound', hgrows.trans hgrows', fun x hx => ?_⟩
    · rw [List.foldlM_cons, ht]
      exact hu
    · rcases List.mem_cons.mp hx with rfl | hx
      · exact hgrows'.mem_keys hm
      · exact hall x hx

/-! ## Depth -/

theorem foldlM_imp {α β : Type} {f g : β → α → Option β} {xs : List α} {b b' : β}
    (hfg : ∀ b x b', f b x = some b' → g b x = some b') (h : xs.foldlM f b = some b') :
    xs.foldlM g b = some b' := by
  induction xs generalizing b with
  | nil => exact h
  | cons x xs ih =>
    rw [List.foldlM_cons] at h ⊢
    obtain ⟨c, hc, hrest⟩ := Option.bind_eq_some_iff.mp h
    rw [hfg b x c hc]
    exact ih hrest

theorem follow_imp {visit visit' : ComponentSearch → String → Option ComponentSearch}
    (hvisit : ∀ s w t, visit s w = some t → visit' s w = some t)
    (h : follow visit v s w = some t) : follow visit' v s w = some t := by
  unfold follow at h ⊢
  split_ifs at h ⊢ with hmet hs
  · exact h
  · exact h
  · obtain ⟨u, hu, ht⟩ := Option.map_eq_some_iff.mp h
    rw [hvisit s w u hu, Option.map_some, ht]

/-- A walk that does not break off is the same at any greater depth. -/
theorem connect_succ (h : connect next depth s v = some t) :
    connect next (depth + 1) s v = some t := by
  induction depth generalizing s v t with
  | zero => cases h
  | succ depth ih =>
    rw [connect] at h ⊢
    obtain ⟨u, hu, ht⟩ := Option.map_eq_some_iff.mp h
    rw [foldlM_imp (fun _ _ _ => follow_imp fun _ _ _ => ih) hu, Option.map_some, ht]

theorem visit_succ (h : visit next depth s v = some t) : visit next (depth + 1) s v = some t := by
  unfold visit at h ⊢
  split_ifs at h ⊢
  · exact h
  · exact connect_succ h

end ComponentSearch

theorem components_of_le {groups : List (List String)} {depth' : Nat}
    (h : components next vertices depth = some groups) (hd : depth ≤ depth') :
    components next vertices depth' = some groups := by
  induction hd with
  | refl => exact h
  | step _ ih =>
    obtain ⟨t, ht, hgroups⟩ := Option.map_eq_some_iff.mp ih
    rw [components, ComponentSearch.foldlM_imp (fun _ _ _ => ComponentSearch.visit_succ) ht,
      Option.map_some, hgroups]

/-! ## The groups of a graph -/

section Graph

variable {groups : List (List String)} {group : List String}

/-- **The groups of a graph**: every vertex is in one of them, and in no other. -/
structure AreComponents (next : String → List String) (vertices : List String)
    (groups : List (List String)) : Prop where
  nodup : groups.flatten.Nodup
  mem_iff : ∀ v, v ∈ groups.flatten ↔ v ∈ vertices
  each : ∀ group ∈ groups, IsComponent next group

theorem AreComponents.nodup_of_mem (h : AreComponents next vertices groups) (hg : group ∈ groups) :
    group.Nodup :=
  (List.nodup_flatten.mp h.nodup).1 group hg

theorem AreComponents.pairwise_disjoint (h : AreComponents next vertices groups) :
    groups.Pairwise List.Disjoint :=
  (List.nodup_flatten.mp h.nodup).2

theorem AreComponents.subset (h : AreComponents next vertices groups) (hg : group ∈ groups) :
    group ⊆ vertices :=
  fun v hv => (h.mem_iff v).mp (List.mem_flatten.mpr ⟨group, hg, hv⟩)

/-- **The groups of every graph are found**, at any depth that is as great as the graph is large. -/
theorem exists_components (hv : ∀ v ∈ vertices, next v ⊆ vertices) :
    ∃ groups, AreComponents next vertices groups ∧
      ∀ depth, vertices.length ≤ depth → components next vertices depth = some groups := by
  obtain ⟨t, ht, hsound, -, hall⟩ := ComponentSearch.exists_visits hv (Nat.le_refl _)
    (List.Subset.refl vertices) (ComponentSearch.sound_empty next vertices)
  have hstack := hsound.stack_eq_nil
  refine ⟨t.found, ⟨?_, fun v => ⟨fun hf => ?_, fun hm => ?_⟩, hsound.components⟩, ?_⟩
  · simpa [hstack] using hsound.nodup
  · exact hsound.known ((hsound.met v).mpr (.inr hf))
  · exact ((hsound.met v).mp (hall v hm)).resolve_left fun hs => by simp [hstack] at hs
  · exact fun depth => components_of_le (by rw [components, ht, Option.map_some])

end Graph

end Bindery
