import Bindery.Binding.Draft
import Bindery.Proofs.Scope.Drained

/-!
# The queues of a scope

* `Scope.queueOf`: the references that wait for a name.
* `Scope.awaitAll`: what a new symbol adds to the queues.
* **`Scope.queueOf_awaitAll`**, **`Scope.mem_queueOf_awaitAll`**: what waits afterwards.
* `Scope.queueOf_dropStale`: what waits after symbols have gone.
-/

namespace Bindery.Scope

/-- The references that wait for a name. -/
def queueOf (s : Scope) (name : String) : List WaitingReference :=
  ((s.waiting.get? name).map WaitingImport.queue).getD []

/-- Let the references of a symbol wait. -/
def awaitAll (s : Scope) (id : SymbolId) (ds : List Deferral) : Scope :=
  ds.foldl (fun s d => s.await d.name ⟨id, d.strong, d.placed⟩) s

variable (s : Scope) (id : SymbolId) (ds : List Deferral)

theorem get?_waiting_await (n k : String) (r : WaitingReference) : (s.await n r).waiting.get? k =
    if k = n then (s.waiting.get? k).map fun w => { w with queue := w.queue ++ [r] }
    else s.waiting.get? k := Table.get?_modify _ _ _ _

@[simp] theorem keys_waiting_awaitAll : (s.awaitAll id ds).waiting.keys = s.waiting.keys := by
  induction ds generalizing s with
  | nil => rfl
  | cons d ds ih => exact (ih _).trans (Table.keys_modify _ _ _)

theorem get?_waiting_awaitAll (n : String) : (s.awaitAll id ds).waiting.get? n =
    (s.waiting.get? n).map fun w =>
      { w with
        queue := w.queue ++
          (ds.filter (·.name = n)).map fun d => ⟨id, d.strong, d.placed⟩ } := by
  induction ds generalizing s with
  | nil =>
    cases h : s.waiting.get? n <;> simp [awaitAll, h]
  | cons d ds ih =>
    refine (ih _).trans ?_
    rw [get?_waiting_await]
    by_cases hn : n = d.name
    · rw [if_pos hn, List.filter_cons_of_pos (by simpa using hn.symm), Option.map_map]
      congr 1
      funext w
      simp
    · rw [if_neg hn, List.filter_cons_of_neg (by simpa using Ne.symm hn)]

@[simp] theorem drained_awaitAll : (s.awaitAll id ds).drained = s.drained := by
  induction ds generalizing s with
  | nil => rfl
  | cons d ds ih => exact (ih _).trans (s.drained_await _ _)

theorem queueOf_of_get? {s : Scope} {n : String} {w : WaitingImport}
    (h : s.waiting.get? n = some w) : s.queueOf n = w.queue := by
  rw [queueOf, h]
  rfl

theorem queueOf_awaitAll {n : String} (h : s.waiting.contains n = true) :
    (s.awaitAll id ds).queueOf n =
      s.queueOf n ++ (ds.filter (·.name = n)).map fun d => ⟨id, d.strong, d.placed⟩ := by
  obtain ⟨w, hw⟩ := Option.isSome_iff_exists.mp h
  rw [queueOf, get?_waiting_awaitAll, queueOf, hw]
  rfl

theorem mem_queueOf_awaitAll {n : String} {r : WaitingReference}
    (h : r ∈ (s.awaitAll id ds).queueOf n) : r ∈ s.queueOf n ∨ r.symbol = id := by
  cases hc : s.waiting.contains n with
  | false =>
    rw [Table.contains, Option.isSome_eq_false_iff, Option.isNone_iff_eq_none] at hc
    rw [queueOf, get?_waiting_awaitAll, hc] at h
    cases h
  | true =>
    rw [s.queueOf_awaitAll id ds hc, List.mem_append] at h
    rcases h with hr | hr
    · exact .inl hr
    · obtain ⟨d, -, rfl⟩ := List.mem_map.mp hr
      exact .inr rfl

theorem queueOf_dropStale (alive : SymbolId → Bool) (n : String) :
    (s.dropStale alive).queueOf n = (s.queueOf n).filter fun r => alive r.symbol := by
  rw [queueOf, dropStale, Table.get?_mapValues, queueOf]
  cases s.waiting.get? n <;> rfl

theorem mem_queueOf_dropStale {alive : SymbolId → Bool} {n : String} {r : WaitingReference}
    (h : r ∈ (s.dropStale alive).queueOf n) : alive r.symbol = true := by
  rw [queueOf_dropStale] at h
  exact (List.mem_filter.mp h).2

/-- Where every symbol is still there, all of its references are kept. -/
theorem dropStale_eq {alive : SymbolId → Bool}
    (h : ∀ n, ∀ r ∈ s.queueOf n, alive r.symbol = true) : s.dropStale alive = s := by
  have hw : (s.dropStale alive).waiting = s.waiting := by
    refine Table.ext_get? (Table.keys_mapValues _ _) fun n => ?_
    rw [dropStale, Table.get?_mapValues]
    cases hn : s.waiting.get? n with
    | none => rfl
    | some w =>
      have hall : w.queue.filter (fun r => alive r.symbol) = w.queue :=
        List.filter_eq_self.mpr fun r hr => h n r (queueOf_of_get? hn ▸ hr)
      rw [Option.map_some, hall]
  rw [dropStale] at hw ⊢
  rw [show s.waiting.mapValues _ = s.waiting from hw]

/-- Without a name, what waits for it does not matter. -/
theorem waiting_awaitAll_erase {t : Scope} {n : String} (h : t.waiting = s.waiting.erase n) :
    (t.awaitAll id (ds.filter (·.name ≠ n))).waiting = (s.awaitAll id ds).waiting.erase n := by
  refine Table.ext_get? ?_ fun k => ?_
  · rw [keys_waiting_awaitAll, h, Table.keys_erase, Table.keys_erase, keys_waiting_awaitAll]
  · rw [get?_waiting_awaitAll, Table.get?_erase, get?_waiting_awaitAll, h, Table.get?_erase]
    by_cases hk : k = n
    · rw [if_pos hk, if_pos hk]
      rfl
    · have hf : (ds.filter (·.name ≠ n)).filter (·.name = k) = ds.filter (·.name = k) := by
        rw [List.filter_filter]
        refine List.filter_congr fun d _ => ?_
        by_cases hd : d.name = k <;> simp [hd, hk]
      rw [if_neg hk, if_neg hk, hf]

end Bindery.Scope
