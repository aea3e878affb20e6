import Mathlib.Data.List.Induction
import Bindery.Proofs.Store.Names

/-!
# Who holds a short name

A name table keeps the holder of a short name apart from those that held it before. What is found in
it after any number of requests can be read off the requests: a short name belongs to whoever was
given it last and has not been taken from it since.

* `NameTable.Request`, `NameTable.run`: registering and unregistering, in turn.
* `NameTable.stack`: the holders of a name as a stack, where whoever is given the name again moves
  to the top.
* **`NameTable.stack_append`**: what later requests leave of a stack, and what they put on it.
* `NameTable.Lasts`, **`NameTable.mem_stack`**: who was given a name that was not taken since.
* `NameTable.LastsLatest`, **`NameTable.head?_stack`**: who was given it last among these.
* `NameTable.Answers`: what is found after the requests.
* **`NameTable.answers_run`**: this is found after any requests.
-/

namespace Bindery.NameTable

/-- What is asked of a name table. -/
inductive Request where
  | register (name qualified : String) (id : SymbolId) (withShort : Bool)
  | unregister (name qualified : String) (id : SymbolId)
  deriving DecidableEq, Repr

namespace Request

/-- The short name `n` is given to `id`. -/
def Gives (n : String) (id : SymbolId) : Request → Prop
  | register name _ k withShort => name = n ∧ k = id ∧ withShort = true
  | unregister .. => False

/-- The short name `n` is taken from `id`. -/
def Takes (n : String) (id : SymbolId) : Request → Prop
  | register .. => False
  | unregister name _ k => name = n ∧ k = id

instance (n : String) (id : SymbolId) (r : Request) : Decidable (r.Gives n id) := by
  cases r <;> unfold Gives <;> infer_instance

instance (n : String) (id : SymbolId) (r : Request) : Decidable (r.Takes n id) := by
  cases r <;> unfold Takes <;> infer_instance

/-- The short name `n` is given to `id` or taken from it. -/
def Concerns (n : String) (id : SymbolId) (r : Request) : Prop := r.Gives n id ∨ r.Takes n id

instance (n : String) (id : SymbolId) (r : Request) : Decidable (r.Concerns n id) :=
  inferInstanceAs (Decidable (_ ∨ _))

theorem Gives.unique {n : String} {id k : SymbolId} {r : Request} (h : r.Gives n id)
    (h' : r.Gives n k) : id = k := by
  cases r with
  | register name qualified id withShort => exact h.2.1.symm.trans h'.2.1
  | unregister name qualified id => exact h.elim

end Request

/-- A request is carried out. -/
def perform (t : NameTable) : Request → NameTable
  | .register name qualified id withShort => (t.register name qualified id withShort).1
  | .unregister name qualified id => t.unregister name qualified id

/-- The table after requests, from the beginning. -/
def run (rs : List Request) : NameTable := rs.foldl perform {}

theorem run_concat (rs : List Request) (r : Request) : run (rs ++ [r]) = (run rs).perform r := by
  rw [run, List.foldl_append]
  rfl

/-! ## The holders as a stack -/

/-- What a request makes of the holders of the name `n`, the latest first. -/
def restack (n : String) (ids : List SymbolId) : Request → List SymbolId
  | .register name _ id withShort =>
    if name = n ∧ withShort = true then id :: ids.filter (· ≠ id) else ids
  | .unregister name _ id => if name = n then ids.filter (· ≠ id) else ids

/-- The holders of the name `n` after requests, the latest first. -/
def stack (n : String) (rs : List Request) : List SymbolId := rs.foldl (restack n) []

variable {n : String} {id : SymbolId} {r : Request} {rs : List Request}

theorem stack_concat : stack n (rs ++ [r]) = restack n (stack n rs) r := by
  rw [stack, List.foldl_append]
  rfl

theorem nodup_stack (n : String) (rs : List Request) : (stack n rs).Nodup := by
  induction rs using List.reverseRecOn with
  | nil => exact List.nodup_nil
  | append_singleton rs r ih =>
    rw [stack_concat]
    cases r with
    | register name qualified id withShort =>
      rw [restack]
      split_ifs
      · exact List.nodup_cons.mpr ⟨by simp, ih.filter _⟩
      · exact ih
    | unregister name qualified id =>
      rw [restack]
      split_ifs
      · exact ih.filter _
      · exact ih

/-- **The table keeps these stacks.** -/
theorem holders_run (rs : List Request) :
    (run rs).Sound ∧ ∀ n, (run rs).holders n = stack n rs := by
  induction rs using List.reverseRecOn with
  | nil => exact ⟨sound_empty, fun _ => rfl⟩
  | append_singleton rs r ih =>
    obtain ⟨hsound, hholders⟩ := ih
    have hnodup : ∀ n, ((run rs).holders n).Nodup := fun n => hholders n ▸ nodup_stack n rs
    rw [run_concat]
    cases r with
    | register name qualified id withShort =>
      refine ⟨hsound.register withShort, fun n => ?_⟩
      rw [stack_concat, restack, perform]
      cases withShort with
      | false => simp [hholders]
      | true =>
        rw [holders_register hsound (hnodup name), hholders, hholders]
        by_cases hn : n = name
        · simp [hn]
        · simp [hn, Ne.symm hn]
    | unregister name qualified id =>
      refine ⟨hsound.unregister, fun n => ?_⟩
      rw [stack_concat, restack, perform, holders_unregister (hnodup name), hholders, hholders]
      by_cases hn : n = name
      · simp [hn]
      · simp [hn, Ne.symm hn]

/-! ## What is on a stack -/

/-- A request puts whom it gives the name on top, and drops everyone whom it concerns. -/
theorem restack_eq (ids : List SymbolId) :
    restack n ids r = restack n [] r ++ ids.filter fun k => ¬r.Concerns n k := by
  cases r with
  | register name qualified id withShort =>
    simp only [restack, Request.Concerns, Request.Gives, Request.Takes, or_false]
    by_cases hc : name = n ∧ withShort = true
    · simp [hc, eq_comm (a := id)]
    · have hkeep : ids.filter (fun k => ¬(name = n ∧ id = k ∧ withShort = true)) = ids :=
        List.filter_eq_self.mpr fun k _ => decide_eq_true fun h => hc ⟨h.1, h.2.2⟩
      rw [if_neg hc, if_neg hc, hkeep, List.nil_append]
  | unregister name qualified id =>
    simp only [restack, Request.Concerns, Request.Gives, Request.Takes, false_or]
    by_cases hn : name = n
    · simp [hn, eq_comm (a := id)]
    · simp [hn]

theorem mem_restack_nil : id ∈ restack n [] r ↔ r.Gives n id := by
  cases r with
  | register name qualified k withShort =>
    rw [restack, Request.Gives]
    by_cases hc : name = n ∧ withShort = true
    · simp [hc, eq_comm (a := id)]
    · rw [if_neg hc]
      exact ⟨fun h => absurd h List.not_mem_nil, fun h => absurd ⟨h.1, h.2.2⟩ hc⟩
  | unregister name qualified k => simp [restack, Request.Gives]

/-- **What later requests leave of a stack**, and what they put on it. -/
theorem stack_append (before after : List Request) : stack n (before ++ after) =
    stack n after ++ (stack n before).filter fun k => ∀ s ∈ after, ¬s.Concerns n k := by
  induction after using List.reverseRecOn with
  | nil => simp [stack]
  | append_singleton after r ih =>
    rw [← List.append_assoc, stack_concat, stack_concat, ih, restack_eq, restack_eq (stack n after),
      List.filter_append, List.append_assoc, List.filter_filter]
    congr 2
    refine List.filter_congr fun k _ => ?_
    rw [Bool.eq_iff_iff]
    simp only [Bool.and_eq_true, decide_eq_true_iff, List.forall_mem_append,
      List.forall_mem_singleton]
    exact and_comm

theorem stack_cons (r : Request) (rs : List Request) : stack n (r :: rs) =
    stack n rs ++ (restack n [] r).filter fun k => ∀ s ∈ rs, ¬s.Concerns n k :=
  stack_append [r] rs

/-! ## Who was given a name -/

/-- A request gives the short name `n` to `id`, and none of those after it takes it away. -/
def Request.Stands (n : String) (id : SymbolId) (r : Request) (after : List Request) : Prop :=
  r.Gives n id ∧ ∀ s ∈ after, ¬s.Takes n id

/-- The short name `n` was given to `id` and not taken from it since. -/
def Lasts (n : String) (id : SymbolId) (rs : List Request) : Prop :=
  ∃ before r after, rs = before ++ r :: after ∧ r.Stands n id after

/-- The short name `n` was given to `id` and not taken from it since, and nobody has it who was
given it later. -/
def LastsLatest (n : String) (id : SymbolId) (rs : List Request) : Prop :=
  ∃ before r after, rs = before ++ r :: after ∧ r.Stands n id after ∧ ∀ k, ¬Lasts n k after

theorem exists_eq_append_cons {α : Type} {P : α → List α → Prop} {y : α} {ys : List α} :
    (∃ before x after, y :: ys = before ++ x :: after ∧ P x after) ↔
      P y ys ∨ ∃ before x after, ys = before ++ x :: after ∧ P x after := by
  constructor
  · rintro ⟨before, x, after, h, hp⟩
    cases before with
    | nil =>
      cases h
      exact .inl hp
    | cons z before =>
      cases h
      exact .inr ⟨before, x, after, rfl, hp⟩
  · rintro (hp | ⟨before, x, after, rfl, hp⟩)
    · exact ⟨[], y, ys, rfl, hp⟩
    · exact ⟨y :: before, x, after, rfl, hp⟩

theorem lasts_cons : Lasts n id (r :: rs) ↔ r.Stands n id rs ∨ Lasts n id rs :=
  exists_eq_append_cons

theorem lastsLatest_cons : LastsLatest n id (r :: rs) ↔
    (r.Stands n id rs ∧ ∀ k, ¬Lasts n k rs) ∨ LastsLatest n id rs :=
  exists_eq_append_cons
    (P := fun (r : Request) after => r.Stands n id after ∧ ∀ k, ¬Lasts n k after)

theorem LastsLatest.lasts (h : LastsLatest n id rs) : Lasts n id rs := by
  obtain ⟨before, r, after, hrs, hr, -⟩ := h
  exact ⟨before, r, after, hrs, hr⟩

theorem stands_iff (hl : ¬Lasts n id rs) :
    r.Stands n id rs ↔ r.Gives n id ∧ ∀ s ∈ rs, ¬s.Concerns n id := by
  refine and_congr_right fun _ => ⟨fun h s hs => ?_, fun h s hs ht => h s hs (.inr ht)⟩
  rintro (hg | ht)
  · obtain ⟨before, after, rfl⟩ := List.append_of_mem hs
    exact hl ⟨before, s, after, rfl, hg, fun s' hs' =>
      h s' (List.mem_append_right _ (List.mem_cons_of_mem _ hs'))⟩
  · exact h s hs ht

/-- **On the stack are those that were given the name** and have not been deprived of it since. -/
theorem mem_stack : id ∈ stack n rs ↔ Lasts n id rs := by
  induction rs with
  | nil => simp [stack, Lasts]
  | cons r rs ih =>
    rw [stack_cons, List.mem_append, ih, List.mem_filter, mem_restack_nil, decide_eq_true_iff,
      lasts_cons]
    by_cases hl : Lasts n id rs
    · simp [hl]
    · rw [stands_iff hl, or_comm]

/-- **On top is who was given the name last** among these. -/
theorem head?_stack : (stack n rs).head? = some id ↔ LastsLatest n id rs := by
  induction rs with
  | nil => simp [stack, LastsLatest]
  | cons r rs ih =>
    rw [stack_cons, lastsLatest_cons]
    cases hs : stack n rs with
    | cons k ks =>
      -- Whoever was given the name now has been succeeded.
      have hk : Lasts n k rs := mem_stack.mp (hs ▸ List.mem_cons_self)
      rw [hs] at ih
      rw [List.cons_append, List.head?_cons, ← List.head?_cons, ih]
      exact ⟨.inr, fun h => h.resolve_left fun h => h.2 k hk⟩
    | nil =>
      have hnone : ∀ k, ¬Lasts n k rs := fun k hk => by
        rw [← mem_stack, hs] at hk
        exact List.not_mem_nil hk
      have hsame : ∀ l : List SymbolId, (∀ k ∈ l, r.Gives n k) → (l.head? = some id ↔ id ∈ l) := by
        intro l hl
        cases l with
        | nil => simp
        | cons k ks =>
          rw [List.head?_cons, Option.some.injEq]
          refine ⟨fun h => h ▸ List.mem_cons_self, fun h => ?_⟩
          exact (hl k List.mem_cons_self).unique (hl id h)
      rw [List.nil_append, hsame _ fun k hk => mem_restack_nil.mp (List.mem_of_mem_filter hk),
        List.mem_filter, mem_restack_nil, decide_eq_true_iff, ← stands_iff (hnone id)]
      exact ⟨fun h => .inl ⟨h, hnone⟩,
        fun h => (h.resolve_right fun h => hnone id h.lasts).1⟩

/-! ## What is found -/

theorem byShortName?_unregister_of_ne {t : NameTable} {name qualified : String}
    (h : t.byShortName? name ≠ some id) :
    (t.unregister name qualified id).byShortName? n = t.byShortName? n := by
  have hshort : (t.unregisterShort name id).short = t.short := by
    rw [unregisterShort, if_neg (show t.short.get? name ≠ some id from h)]
    rfl
  unfold unregister byShortName?
  dsimp only
  split_ifs
  · rw [hshort]
  · rw [hshort]

/-- **What is found after these requests.** -/
structure Answers (rs : List Request) : Prop where
  /-- The holders are kept as a stack. -/
  holders : ∀ n, (run rs).holders n = stack n rs
  /-- A short name belongs to whoever was given it last and has not been deprived of it since. -/
  holder : ∀ n id, (run rs).byShortName? n = some id ↔ LastsLatest n id rs
  /-- It belongs to nobody if it was taken from everyone. -/
  nobody : ∀ n, (run rs).byShortName? n = none ↔ ∀ id, ¬Lasts n id rs
  /-- Whoever registers is told of the holder, if that is someone else. -/
  displaced : ∀ name qualified id withShort k,
    ((run rs).register name qualified id withShort).2 = some k ↔
      withShort = true ∧ (run rs).byShortName? name = some k ∧ k ≠ id
  /-- Former holders can leave in any order. -/
  leaving : ∀ leaving : List Request,
    (∀ r ∈ leaving, ∃ name qualified id, r = .unregister name qualified id ∧
      (run rs).byShortName? name ≠ some id) →
    ∀ n, (run (rs ++ leaving)).byShortName? n = (run rs).byShortName? n

theorem byShortName?_run (rs : List Request) (n : String) :
    (run rs).byShortName? n = (stack n rs).head? := by
  obtain ⟨hsound, hholders⟩ := holders_run rs
  rw [byShortName?_eq_head? hsound, hholders]

theorem byShortName?_run_leaving {leaving : List Request}
    (h : ∀ r ∈ leaving, ∃ name qualified id, r = .unregister name qualified id ∧
      (run rs).byShortName? name ≠ some id) (n : String) :
    (run (rs ++ leaving)).byShortName? n = (run rs).byShortName? n := by
  induction leaving using List.reverseRecOn generalizing n with
  | nil => rw [List.append_nil]
  | append_singleton leaving r ih =>
    rw [List.forall_mem_append, List.forall_mem_singleton] at h
    obtain ⟨hleaving, name, qualified, id, rfl, hne⟩ := h
    rw [← List.append_assoc, run_concat, perform,
      byShortName?_unregister_of_ne (by rwa [ih hleaving]), ih hleaving]

/-- **A short name belongs to whoever was given it last**, after any requests, whatever names an id
is registered and unregistered with. -/
theorem answers_run (rs : List Request) : Answers rs where
  holders := (holders_run rs).2
  holder n id := by rw [byShortName?_run, head?_stack]
  nobody n := by
    rw [byShortName?_run, List.head?_eq_none_iff, List.eq_nil_iff_forall_not_mem]
    exact forall_congr' fun id => not_congr mem_stack
  displaced name qualified id withShort k := by
    rw [snd_register]
    cases withShort with
    | false => simp
    | true => simp [Option.filter_eq_some_iff]
  leaving leaving h := byShortName?_run_leaving h

/-- The first of three comes back on top; when it leaves, the third holds the name again. -/
example : (run [.register "A" "x.A" ⟨0, 0⟩ true, .register "A" "y.A" ⟨1, 0⟩ true,
    .register "A" "z.A" ⟨2, 0⟩ true, .register "A" "x.A" ⟨0, 0⟩ true,
    .unregister "A" "y.A" ⟨1, 0⟩, .unregister "A" "x.A" ⟨0, 0⟩]).holders "A" = [⟨2, 0⟩] := by
  decide

end Bindery.NameTable
