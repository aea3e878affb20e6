/-!
# The order of names

Names are ordered by their characters, character by character, which is also the order of the bytes
of their UTF-8 forms.

* `notAfter`: the order; `notAfter_total`, `notAfter_trans`: it is a total preorder.
* `sortNames`: names in ascending order.
-/

namespace Bindery.Text

/-- `as` comes before `bs` or equals it. -/
def notAfter : List Char → List Char → Bool
  | [], _ => true
  | _ :: _, [] => false
  | a :: as, b :: bs => a.toNat < b.toNat || (a.toNat == b.toNat && notAfter as bs)

/-- Names in ascending order. -/
def sortNames (names : List String) : List String :=
  names.mergeSort fun a b => notAfter a.toList b.toList

theorem notAfter_total (as bs : List Char) : (notAfter as bs || notAfter bs as) = true := by
  induction as generalizing bs with
  | nil => simp [notAfter]
  | cons a as ih =>
    cases bs with
    | nil => simp [notAfter]
    | cons b bs =>
      have h := Bool.or_eq_true_iff.1 (ih bs)
      simp only [notAfter, Bool.or_eq_true, Bool.and_eq_true, decide_eq_true_eq, beq_iff_eq]
      rcases Nat.lt_trichotomy a.toNat b.toNat with hl | he | hg
      · exact Or.inl (Or.inl hl)
      · exact h.imp (fun h => Or.inr ⟨he, h⟩) fun h => Or.inr ⟨he.symm, h⟩
      · exact Or.inr (Or.inl hg)

theorem notAfter_trans {as bs cs : List Char} (h₁ : notAfter as bs = true)
    (h₂ : notAfter bs cs = true) : notAfter as cs = true := by
  induction as generalizing bs cs with
  | nil => simp [notAfter]
  | cons a as ih =>
    cases bs with
    | nil => simp [notAfter] at h₁
    | cons b bs =>
      cases cs with
      | nil => simp [notAfter] at h₂
      | cons c cs =>
        simp only [notAfter, Bool.or_eq_true, Bool.and_eq_true, decide_eq_true_eq,
          beq_iff_eq] at h₁ h₂ ⊢
        rcases h₁ with h₁ | ⟨h₁, h₁'⟩ <;> rcases h₂ with h₂ | ⟨h₂, h₂'⟩
        · exact Or.inl (by omega)
        · exact Or.inl (by omega)
        · exact Or.inl (by omega)
        · exact Or.inr ⟨by omega, ih h₁' h₂'⟩

theorem notAfter_antisymm {as bs : List Char} (h₁ : notAfter as bs = true)
    (h₂ : notAfter bs as = true) : as = bs := by
  induction as generalizing bs with
  | nil => cases bs with
    | nil => rfl
    | cons b bs => simp [notAfter] at h₂
  | cons a as ih =>
    cases bs with
    | nil => simp [notAfter] at h₁
    | cons b bs =>
      simp only [notAfter, Bool.or_eq_true, Bool.and_eq_true, decide_eq_true_eq, beq_iff_eq]
        at h₁ h₂
      have hab : a = b := by
        refine Char.toNat_inj.mp ?_
        omega
      rw [hab, ih (h₁.resolve_left (by rw [hab]; omega)).2
        (h₂.resolve_left (by rw [hab]; omega)).2]

@[simp] theorem mem_sortNames {names : List String} {n : String} :
    n ∈ sortNames names ↔ n ∈ names := by
  simp [sortNames]

end Bindery.Text
