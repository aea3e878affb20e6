import Bindery.Binding.Member

/-!
# References with others in between

Where more names are known, a declaration is read with more references. Those that were read before
are still there, in the same order.

* `Padded`: a list of references with others in between.
* `Padded.append`, `Padded.flatMap`, `Padded.shade`: larger pieces of source.
* `Padded.eq`: nothing in between.
-/

namespace Bindery

/-- **A list of references with others in between**, to names that satisfy `E`. -/
inductive Padded (E : String → Prop) : List Reference → List Reference → Prop where
  | nil : Padded E [] []
  | keep {rs rs' : List Reference} (r : Reference) (h : Padded E rs rs') :
    Padded E (r :: rs) (r :: rs')
  | extra {rs rs' : List Reference} {r : Reference} (hr : E r.name) (h : Padded E rs rs') :
    Padded E rs (r :: rs')

namespace Padded

variable {E : String → Prop} {rs rs' ts ts' : List Reference}

theorem refl (rs : List Reference) : Padded E rs rs := by
  induction rs with
  | nil => exact .nil
  | cons r rs ih => exact .keep r ih

theorem append (h : Padded E rs rs') (h' : Padded E ts ts') :
    Padded E (rs ++ ts) (rs' ++ ts') := by
  induction h with
  | nil => exact h'
  | keep r _ ih => exact .keep r ih
  | extra hr _ ih => exact .extra hr ih

theorem flatMap {α : Type} {f g : α → List Reference} {xs : List α}
    (h : ∀ x ∈ xs, Padded E (f x) (g x)) : Padded E (xs.flatMap f) (xs.flatMap g) := by
  induction xs with
  | nil => exact .nil
  | cons x xs ih =>
    rw [List.forall_mem_cons] at h
    rw [List.flatMap_cons, List.flatMap_cons]
    exact h.1.append (ih h.2)

theorem shade (h : Padded E rs rs') (hidden : List String) :
    Padded E (Context.shade hidden rs) (Context.shade hidden rs') := by
  induction h with
  | nil => exact .nil
  | keep r _ ih => exact .keep _ ih
  | extra hr _ ih => exact .extra hr ih

theorem imp {E' : String → Prop} (hE : ∀ n, E n → E' n) (h : Padded E rs rs') :
    Padded E' rs rs' := by
  induction h with
  | nil => exact .nil
  | keep r _ ih => exact .keep r ih
  | extra hr _ ih => exact .extra (hE _ hr) ih

/-- If no name satisfies `E`, there is nothing in between. -/
theorem eq (hE : ∀ n, ¬E n) (h : Padded E rs rs') : rs = rs' := by
  induction h with
  | nil => rfl
  | keep r _ ih => rw [ih]
  | extra hr => exact absurd hr (hE _)

end Padded

end Bindery
