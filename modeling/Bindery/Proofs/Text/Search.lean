import Mathlib.Data.List.Infix
import Bindery.Proofs.Text.Substitution
import Bindery.Tree.Sketch

/-!
# The first word

Where a piece of text first stands in a text without cutting a word, beside the search for it. The
search goes on after an occurrence that cuts a word, so it may pass over one that begins inside.

* `Text.IsWordAt`, `Text.IsFirst`: what is looked for.
* `Text.LooksAt`: the occurrences the search comes to; **`Text.findWord?_eq_some_iff`**: the one it
  takes.
* **`Text.finds_findWord?_iff`**: it finds the first word unless it passes over it.
* `Text.IsSteady`, **`Text.forall_finds_iff`**: what is found right in every text.
* **`Sketch.finds_findAfter_iff`**: the same for the leaves of a sketch.
-/

namespace Bindery

namespace Text

/-! ## Words in a text -/

/-- The character that ends at byte `n`. -/
def charBefore? (text : List Char) (n : Nat) : Option Char := (take? n text).bind List.getLast?

/-- The character that starts at byte `n`. -/
def charAfter? (text : List Char) (n : Nat) : Option Char := (drop? n text).bind List.head?

/-- The text `needle` stands in another text at a span. -/
def OccursAt (needle text : List Char) (s : Span) : Prop := slice? text s = some needle

/-- It stands there and cuts no word: where it begins with a character of words, none is in front of
it, and where it ends with one, none follows. -/
structure IsWordAt (needle text : List Char) (s : Span) : Prop where
  occurs : OccursAt needle text s
  before : needle.head?.any isWordChar → ¬(charBefore? text s.start).any isWordChar
  after : needle.getLast?.any isWordChar → ¬(charAfter? text s.stop).any isWordChar

/-- Of the spans at or after an offset, `s` is the first with a property. -/
structure IsFirst (P : Span → Prop) (start : Nat) (s : Span) : Prop where
  holds : P s
  le_start : start ≤ s.start
  le : ∀ t, P t → start ≤ t.start → s.start ≤ t.start

/-- The search from `start` on comes to the occurrence at a span: it looks at the first one, and
after one that cuts a word at the first that starts where that one ends, or later. -/
inductive LooksAt (needle text : List Char) : Nat → Span → Prop
  | first {start : Nat} {s : Span} : IsFirst (OccursAt needle text) start s →
      LooksAt needle text start s
  | after {start : Nat} {s t : Span} : IsFirst (OccursAt needle text) start t →
      ¬IsWordAt needle text t → LooksAt needle text t.stop s → LooksAt needle text start s

/-- The search comes to the occurrence at a span, and it cuts no word. -/
def Takes (needle text : List Char) (start : Nat) (s : Span) : Prop :=
  LooksAt needle text start s ∧ IsWordAt needle text s

/-- The search comes to an occurrence that begins before a span and ends inside it or behind it. -/
def PassesOver (needle text : List Char) (start : Nat) (s : Span) : Prop :=
  ∃ v, LooksAt needle text start v ∧ v.start < s.start ∧ s.start < v.stop

/-- The answer is the first span with a property at or after an offset, if there is one. -/
def Finds (P : Span → Prop) (start : Nat) : Option Span → Prop
  | some s => IsFirst P start s
  | none => ∀ s, P s → s.start < start

/-- Wherever the text begins again inside itself, behind `u`, the second occurrence is sure to cut a
word if the first one can: at its front, or at its end, where the second one goes on with `w`. -/
def IsSteady (needle : List Char) : Prop :=
  ∀ u b w, u ≠ [] → b ≠ [] → needle = u ++ b → needle = b ++ w →
    (needle.head?.any isWordChar ∨ (needle.getLast?.any isWordChar ∧ w.head?.any isWordChar)) →
      needle.head?.any isWordChar ∧ u.getLast?.any isWordChar

section

variable {needle text front rest : List Char} {start start' : Nat} {s t v : Span} {c : Char}
  {before : Option Char} {P : Span → Prop}

instance : Decidable (OccursAt needle text s) := inferInstanceAs (Decidable (_ = _))

theorem isWordAt_iff_and : IsWordAt needle text s ↔ OccursAt needle text s ∧
    (needle.head?.any isWordChar → ¬(charBefore? text s.start).any isWordChar) ∧
      (needle.getLast?.any isWordChar → ¬(charAfter? text s.stop).any isWordChar) :=
  ⟨fun h => ⟨h.1, h.2, h.3⟩, fun h => ⟨h.1, h.2.1, h.2.2⟩⟩

instance : Decidable (IsWordAt needle text s) := decidable_of_iff' _ isWordAt_iff_and

/-! ## Occurrences -/

theorem occursAt_iff : OccursAt needle text s ↔ ∃ front rest, text = front ++ (needle ++ rest) ∧
    s = Span.ofLength (byteLength front) (byteLength needle) := by
  unfold OccursAt
  rw [slice?_eq_some_iff]
  obtain ⟨i, j⟩ := s
  simp only [List.append_assoc, Span.ofLength, Span.mk.injEq]

theorem occursAt_append (front needle rest : List Char) :
    OccursAt needle (front ++ (needle ++ rest))
      (Span.ofLength (byteLength front) (byteLength needle)) :=
  occursAt_iff.mpr ⟨front, rest, rfl, rfl⟩

theorem OccursAt.stop_eq (h : OccursAt needle text s) : s.stop = s.start + byteLength needle := by
  obtain ⟨front, rest, -, rfl⟩ := occursAt_iff.mp h
  rfl

theorem OccursAt.eq_of_start_eq (hs : OccursAt needle text s) (ht : OccursAt needle text t)
    (h : s.start = t.start) : s = t := by
  obtain ⟨i, j⟩ := s
  obtain ⟨k, l⟩ := t
  have hj := hs.stop_eq
  have hl := ht.stop_eq
  simp only [Span.mk.injEq] at *
  omega

theorem OccursAt.exists_of_le (h : OccursAt needle (front ++ rest) s)
    (hle : byteLength front ≤ s.start) : ∃ mid tail, rest = mid ++ (needle ++ tail) ∧
      s = Span.ofLength (byteLength (front ++ mid)) (byteLength needle) := by
  obtain ⟨front', tail, htext, rfl⟩ := occursAt_iff.mp h
  obtain ⟨mid, rfl, hrest⟩ := exists_append_of_byteLength_le htext hle
  exact ⟨mid, tail, hrest, rfl⟩

theorem OccursAt.ofLength_eq (h : OccursAt needle text s) :
    Span.ofLength s.start (byteLength needle) = s := by
  rw [Span.ofLength, ← h.stop_eq]

theorem OccursAt.eq_nil (h : OccursAt needle (front ++ []) s) (hle : byteLength front ≤ s.start) :
    needle = [] := by
  obtain ⟨mid, tail, hrest, -⟩ := h.exists_of_le hle
  rw [eq_comm, List.append_eq_nil_iff, List.append_eq_nil_iff] at hrest
  exact hrest.2.1

theorem OccursAt.le_start (h : OccursAt needle (front ++ c :: rest) s)
    (hle : byteLength front ≤ s.start) (hp : ¬needle <+: c :: rest) :
    byteLength (front ++ [c]) ≤ s.start := by
  obtain ⟨mid, tail, hrest, rfl⟩ := h.exists_of_le hle
  cases mid with
  | nil => exact absurd ⟨tail, hrest.symm⟩ hp
  | cons d mid =>
    obtain ⟨rfl, -⟩ := List.cons.inj hrest
    simp only [Span.ofLength_start, byteLength_append, byteLength]
    omega

theorem OccursAt.length_pos (ht : OccursAt needle text t) (hw : ¬IsWordAt needle text t) :
    0 < byteLength needle := by
  refine Nat.pos_of_ne_zero fun hzero => hw ?_
  obtain rfl := eq_nil_of_byteLength_eq_zero hzero
  exact ⟨ht, fun h => absurd h (by simp), fun h => absurd h (by simp)⟩

/-- Around an occurrence, a word is cut exactly if it does not stand alone. -/
theorem isWordAt_append_iff (front needle rest : List Char) :
    IsWordAt needle (front ++ (needle ++ rest))
      (Span.ofLength (byteLength front) (byteLength needle)) ↔
        standsAlone needle front.getLast? (needle ++ rest) = true := by
  have hbefore : charBefore? (front ++ (needle ++ rest)) (byteLength front) = front.getLast? := by
    simp [charBefore?, take?, cut?_byteLength_append]
  have hafter : charAfter? (front ++ (needle ++ rest)) (byteLength front + byteLength needle) =
      rest.head? := by
    rw [charAfter?, drop?, ← List.append_assoc, ← byteLength_append, cut?_byteLength_append]
    rfl
  rw [isWordAt_iff_and, standsAlone, List.drop_left]
  simp only [Span.ofLength, hbefore, hafter, Bool.and_eq_true, Bool.not_eq_true',
    Bool.and_eq_false_imp, Bool.not_eq_true]
  exact ⟨And.right, And.intro (occursAt_append front needle rest)⟩

theorem not_isWordAt_append_iff (front needle rest : List Char) :
    ¬IsWordAt needle (front ++ (needle ++ rest))
      (Span.ofLength (byteLength front) (byteLength needle)) ↔
        needle.head?.any isWordChar ∧ front.getLast?.any isWordChar ∨
          needle.getLast?.any isWordChar ∧ rest.head?.any isWordChar := by
  rw [isWordAt_append_iff, standsAlone, List.drop_left, ← Bool.not_or]
  simp only [Bool.not_eq_true', Bool.not_eq_false, Bool.or_eq_true, Bool.and_eq_true]

/-! ## The first span with a property -/

theorem exists_isFirst (hP : P s) (hle : start ≤ s.start) : ∃ t, IsFirst P start t := by
  induction hn : s.start using Nat.strong_induction_on generalizing s with
  | _ n ih =>
    by_cases h : ∃ t, P t ∧ start ≤ t.start ∧ t.start < n
    · obtain ⟨t, ht, hst, htn⟩ := h
      exact ih t.start htn ht hst rfl
    · refine ⟨s, hP, hle, fun t ht hst => ?_⟩
      by_contra hlt
      exact h ⟨t, ht, hst, by omega⟩

theorem IsFirst.start_eq (hs : IsFirst P start s) (ht : IsFirst P start t) : s.start = t.start :=
  Nat.le_antisymm (hs.le t ht.holds ht.le_start) (ht.le s hs.holds hs.le_start)

theorem isFirst_congr (hle : start ≤ start') (h : ∀ t, P t → start ≤ t.start → start' ≤ t.start) :
    IsFirst P start s ↔ IsFirst P start' s :=
  ⟨fun hs => ⟨hs.holds, h s hs.holds hs.le_start, fun t ht ht' => hs.le t ht (hle.trans ht')⟩,
    fun hs => ⟨hs.holds, hle.trans hs.le_start, fun t ht ht' => hs.le t ht (h t ht ht')⟩⟩

theorem isFirst_append (front needle rest : List Char) :
    IsFirst (OccursAt needle (front ++ (needle ++ rest))) (byteLength front)
      (Span.ofLength (byteLength front) (byteLength needle)) :=
  ⟨occursAt_append front needle rest, Nat.le_refl _, fun _ _ h => h⟩

/-! ## The way of the search -/

theorem LooksAt.occurs (h : LooksAt needle text start s) : OccursAt needle text s := by
  induction h with
  | first h => exact h.holds
  | after _ _ _ ih => exact ih

theorem LooksAt.le_start (h : LooksAt needle text start s) : start ≤ s.start := by
  induction h with
  | first h => exact h.le_start
  | after h _ _ ih =>
    have := h.le_start
    have := h.holds.stop_eq
    omega

theorem looksAt_congr (hle : start ≤ start')
    (h : ∀ t, OccursAt needle text t → start ≤ t.start → start' ≤ t.start) :
    LooksAt needle text start s ↔ LooksAt needle text start' s := by
  constructor
  · rintro (hs | ⟨ht, hw, hs⟩)
    · exact .first ((isFirst_congr hle h).mp hs)
    · exact .after ((isFirst_congr hle h).mp ht) hw hs
  · rintro (hs | ⟨ht, hw, hs⟩)
    · exact .first ((isFirst_congr hle h).mpr hs)
    · exact .after ((isFirst_congr hle h).mpr ht) hw hs

/-- The search comes to the first occurrence, and beyond it only if that one cuts a word. -/
theorem looksAt_iff (ht : IsFirst (OccursAt needle text) start t) :
    LooksAt needle text start s ↔
      s = t ∨ ¬IsWordAt needle text t ∧ LooksAt needle text t.stop s := by
  constructor
  · rintro (hs | ⟨ht', hw, hs⟩)
    · exact .inl (hs.holds.eq_of_start_eq ht.holds (hs.start_eq ht))
    · obtain rfl := ht'.holds.eq_of_start_eq ht.holds (ht'.start_eq ht)
      exact .inr ⟨hw, hs⟩
  · rintro (rfl | ⟨hw, hs⟩)
    · exact .first ht
    · exact .after ht hw hs

theorem takes_iff_eq (ht : IsFirst (OccursAt needle text) start t) (hw : IsWordAt needle text t) :
    Takes needle text start s ↔ s = t := by
  rw [Takes, looksAt_iff ht]
  constructor
  · rintro ⟨rfl | ⟨hno, -⟩, -⟩
    · rfl
    · exact absurd hw hno
  · rintro rfl
    exact ⟨.inl rfl, hw⟩

theorem takes_iff_of_not_isWordAt (ht : IsFirst (OccursAt needle text) start t)
    (hw : ¬IsWordAt needle text t) : Takes needle text start s ↔ Takes needle text t.stop s := by
  rw [Takes, looksAt_iff ht]
  constructor
  · rintro ⟨rfl | ⟨-, hs⟩, hs'⟩
    · exact absurd hs' hw
    · exact ⟨hs, hs'⟩
  · rintro ⟨hs, hs'⟩
    exact ⟨.inr ⟨hw, hs⟩, hs'⟩

theorem takes_congr (hle : start ≤ start')
    (h : ∀ t, OccursAt needle text t → start ≤ t.start → start' ≤ t.start) :
    Takes needle text start s ↔ Takes needle text start' s := by
  rw [Takes, Takes, looksAt_congr hle h]

/-! ## The search -/

/-- What belongs to an occurrence that has been turned down is left out. -/
theorem findWordFrom_covered (needle : List Char) (before : Option Char) (offset : Nat)
    (as bs : List Char) : findWordFrom needle before offset as.length (as ++ bs) =
      findWordFrom needle (as.getLast?.or before) (offset + byteLength as) 0 bs := by
  induction as generalizing before offset with
  | nil => rfl
  | cons c as ih =>
    rw [List.cons_append, List.length_cons, findWordFrom, if_neg (by simp), Nat.add_sub_cancel, ih,
      List.getLast?_cons, byteLength, Nat.add_assoc]
    cases as.getLast? <;> rfl

theorem findWordFrom_of_standsAlone (h : standsAlone needle before (needle ++ rest) = true)
    (offset : Nat) : findWordFrom needle before offset 0 (needle ++ rest) = some offset := by
  have hprefix : needle.isPrefixOf (needle ++ rest) = true :=
    List.isPrefixOf_iff_prefix.mpr (List.prefix_append _ _)
  cases hrest : needle ++ rest with
  | nil => rw [findWordFrom, if_pos ⟨rfl, (List.append_eq_nil_iff.mp hrest).1⟩]
  | cons c cs =>
    rw [hrest] at h hprefix
    rw [findWordFrom, if_pos ⟨rfl, hprefix⟩, if_pos h]

theorem ne_nil_of_standsAlone_eq_false (h : standsAlone needle before rest = false) :
    needle ≠ [] := by
  rintro rfl
  simp [standsAlone] at h

/-- After an occurrence that cuts a word, the search goes on where it ends. -/
theorem findWordFrom_of_standsAlone_eq_false
    (h : standsAlone needle before (needle ++ rest) = false) (offset : Nat) :
    findWordFrom needle before offset 0 (needle ++ rest) =
      findWordFrom needle needle.getLast? (offset + byteLength needle) 0 rest := by
  have hne : needle ≠ [] := ne_nil_of_standsAlone_eq_false h
  obtain ⟨c, cs, rfl⟩ := List.exists_cons_of_ne_nil hne
  have hprefix : (c :: cs).isPrefixOf (c :: (cs ++ rest)) = true :=
    List.isPrefixOf_iff_prefix.mpr (List.prefix_append _ _)
  rw [List.cons_append] at h ⊢
  rw [findWordFrom, if_pos ⟨rfl, hprefix⟩, h, if_neg Bool.false_ne_true, List.length_cons,
    Nat.add_sub_cancel, findWordFrom_covered, List.getLast?_cons, byteLength, Nat.add_assoc]
  cases cs.getLast? <;> rfl

theorem findWordFrom_cons (h : ¬needle <+: c :: rest) (before : Option Char)
    (offset : Nat) : findWordFrom needle before offset 0 (c :: rest) =
      findWordFrom needle (some c) (offset + c.utf8Size) 0 rest := by
  rw [← List.isPrefixOf_iff_prefix] at h
  rw [findWordFrom, if_neg fun hp => h hp.2]

theorem findWordFrom_eq_some_iff (needle front rest : List Char) (n : Nat) :
    findWordFrom needle front.getLast? (byteLength front) 0 rest = some n ↔
      Takes needle (front ++ rest) (byteLength front) (Span.ofLength n (byteLength needle)) := by
  induction hk : rest.length using Nat.strong_induction_on generalizing front rest with
  | _ k ih =>
    subst hk
    by_cases hp : needle <+: rest
    · obtain ⟨tail, rfl⟩ := hp
      have hfirst := isFirst_append front needle tail
      have hword := isWordAt_append_iff front needle tail
      cases h : standsAlone needle front.getLast? (needle ++ tail) with
      | true =>
        rw [findWordFrom_of_standsAlone h, Option.some.injEq, takes_iff_eq hfirst (hword.mpr h)]
        exact ⟨fun h => h ▸ rfl, fun h => (congrArg Span.start h).symm⟩
      | false =>
        have hne := ne_nil_of_standsAlone_eq_false h
        have hshorter : tail.length < (needle ++ tail).length := by
          rw [List.length_append]
          exact Nat.lt_add_of_pos_left (List.length_pos_iff.mpr hne)
        have hih := ih tail.length hshorter (front ++ needle) tail rfl
        rw [List.getLast?_append_of_ne_nil _ hne, byteLength_append, List.append_assoc] at hih
        rw [findWordFrom_of_standsAlone_eq_false h, hih,
          takes_iff_of_not_isWordAt hfirst (by rw [hword, h]; exact Bool.false_ne_true)]
        rfl
    · cases rest with
      | nil =>
        have hne : needle ≠ [] := fun h => hp (h ▸ List.prefix_rfl)
        rw [findWordFrom, if_neg fun h => hne h.2]
        exact ⟨fun h => (Option.some_ne_none _ h.symm).elim,
          fun h => absurd (h.1.occurs.eq_nil h.1.le_start) hne⟩
      | cons c rest =>
        have hih := ih rest.length (by simp) (front ++ [c]) rest rfl
        have hlen : byteLength (front ++ [c]) = byteLength front + c.utf8Size := by
          simp [byteLength]
        rw [List.getLast?_concat, List.append_assoc, List.singleton_append] at hih
        rw [findWordFrom_cons hp, ← hlen, hih,
          takes_congr (by omega) fun t ht hle => ht.le_start hle hp]

/-- **What is found from an offset on**: the occurrence that the search takes. -/
theorem findWord?_eq_some_iff (h : IsCut text start) :
    findWord? text needle start = some s ↔ Takes needle text start s := by
  obtain ⟨front, rest, rfl, rfl⟩ := h
  rw [findWord?, cut?_byteLength_append, Option.bind_eq_bind, Option.bind_some, Option.bind_eq_bind,
    Option.bind_eq_some_iff]
  constructor
  · rintro ⟨n, hn, hs⟩
    obtain rfl : Span.ofLength n (byteLength needle) = s := Option.some.inj hs
    exact (findWordFrom_eq_some_iff needle front rest n).mp hn
  · intro hs
    have hspan := hs.2.occurs.ofLength_eq
    exact ⟨s.start, (findWordFrom_eq_some_iff needle front rest _).mpr (hspan.symm ▸ hs),
      congrArg some hspan⟩

/-! ## The first word -/

theorem LooksAt.stop_le (hs : LooksAt needle text start s) (hv : LooksAt needle text start v)
    (hlt : v.start < s.start) : v.stop ≤ s.start := by
  induction hs with
  | first hs => exact absurd hlt (Nat.not_lt.mpr (hs.le v hv.occurs hv.le_start))
  | after ht hw hs ih =>
    rcases (looksAt_iff ht).mp hv with rfl | ⟨-, hv⟩
    · exact hs.le_start
    · exact ih hv hlt

theorem looksAt_of_not_passesOver (hs : IsFirst (IsWordAt needle text) start s)
    (hpass : ¬PassesOver needle text start s) : LooksAt needle text start s := by
  induction hk : s.start - start using Nat.strong_induction_on generalizing start with
  | _ k ih =>
    subst hk
    obtain ⟨t, ht⟩ := exists_isFirst hs.holds.occurs hs.le_start
    rcases Nat.lt_or_eq_of_le (ht.le s hs.holds.occurs hs.le_start) with hlt | heq
    · have hw : ¬IsWordAt needle text t := fun hw =>
        Nat.not_le.mpr hlt (hs.le t hw ht.le_start)
      have hstop : t.stop ≤ s.start :=
        Nat.le_of_not_lt fun h => hpass ⟨t, .first ht, hlt, h⟩
      have hpos := ht.holds.length_pos hw
      have hlater : start < t.stop := by
        have := ht.le_start
        have := ht.holds.stop_eq
        omega
      refine .after ht hw (ih _ (by omega) ⟨hs.holds, hstop, fun u hu hle => ?_⟩ ?_ rfl)
      · exact hs.le u hu (hlater.le.trans hle)
      · rintro ⟨v, hv, h⟩
        exact hpass ⟨v, .after ht hw hv, h⟩
    · obtain rfl := ht.holds.eq_of_start_eq hs.holds.occurs heq
      exact .first ht

/-- **The search finds the first word unless it passes over it.** -/
theorem finds_findWord?_iff (h : IsCut text start) :
    Finds (IsWordAt needle text) start (findWord? text needle start) ↔
      ∀ s, IsFirst (IsWordAt needle text) start s → ¬PassesOver needle text start s := by
  constructor
  · rintro hfinds s hs ⟨v, hv, hlt, hgt⟩
    cases hr : findWord? text needle start with
    | none =>
      rw [hr] at hfinds
      exact Nat.not_le.mpr (hfinds s hs.holds) hs.le_start
    | some s' =>
      rw [hr] at hfinds
      obtain rfl := hfinds.holds.occurs.eq_of_start_eq hs.holds.occurs (hfinds.start_eq hs)
      have := ((findWord?_eq_some_iff h).mp hr).1.stop_le hv hlt
      omega
  · intro hpass
    have htakes : ∀ s, IsFirst (IsWordAt needle text) start s →
        findWord? text needle start = some s := fun s hs =>
      (findWord?_eq_some_iff h).mpr ⟨looksAt_of_not_passesOver hs (hpass s hs), hs.holds⟩
    cases hr : findWord? text needle start with
    | none =>
      refine fun s hs => Nat.lt_of_not_le fun hle => ?_
      obtain ⟨s', hs'⟩ := exists_isFirst hs hle
      exact Option.some_ne_none _ ((htakes s' hs').symm.trans hr)
    | some s =>
      obtain ⟨hlooks, hw⟩ := (findWord?_eq_some_iff h).mp hr
      obtain ⟨s', hs'⟩ := exists_isFirst hw hlooks.le_start
      obtain rfl : s' = s := Option.some.inj ((htakes s' hs').symm.trans hr)
      exact hs'

/-! ## Texts that begin again inside themselves -/

theorem exists_overlap {front' rest' : List Char}
    (h : front ++ (needle ++ rest) = front' ++ (needle ++ rest'))
    (hlt : byteLength front < byteLength front')
    (hgt : byteLength front' < byteLength front + byteLength needle) :
    ∃ u b w, needle = u ++ b ∧ needle = b ++ w ∧ u ≠ [] ∧ b ≠ [] ∧ front' = front ++ u ∧
      rest = w ++ rest' := by
  obtain ⟨u, rfl, hu⟩ := exists_append_of_byteLength_le h hlt.le
  rw [byteLength_append] at hlt hgt
  obtain ⟨b, hb, hrest⟩ := exists_append_of_byteLength_le hu.symm (by omega)
  have hb' : byteLength needle = byteLength u + byteLength b := by rw [hb, byteLength_append]
  obtain ⟨w, hw, hrest'⟩ := exists_append_of_byteLength_le hrest.symm (by omega)
  refine ⟨u, b, w, hb, hw, ?_, ?_, rfl, hrest'⟩
  · rintro rfl
    simp [byteLength] at hlt
  · rintro rfl
    simp only [byteLength] at hb'
    omega

theorem IsSteady.not_passesOver (h : IsSteady needle)
    (hs : IsFirst (IsWordAt needle text) start s) : ¬PassesOver needle text start s := by
  rintro ⟨v, hv, hlt, hgt⟩
  have hcuts : ¬IsWordAt needle text v := fun hw => Nat.not_le.mpr hlt (hs.le v hw hv.le_start)
  have hword := hs.holds
  obtain ⟨front, rest, rfl, rfl⟩ := occursAt_iff.mp hv.occurs
  obtain ⟨front', rest', htext, rfl⟩ := occursAt_iff.mp hword.occurs
  obtain ⟨u, b, w, hub, hbw, hu, hb, rfl, rfl⟩ := exists_overlap htext hlt hgt
  have hw : w ≠ [] := by
    rintro rfl
    have := congrArg List.length (hub.symm.trans hbw)
    simp [hu] at this
  rw [not_isWordAt_append_iff, List.head?_append_of_ne_nil _ hw] at hcuts
  have hcuts' := h u b w hu hb hub hbw (hcuts.imp_left And.left)
  rw [htext] at hword
  refine (not_isWordAt_append_iff _ needle rest').mpr (.inl ?_) hword
  rwa [List.getLast?_append_of_ne_nil _ hu]

/-- What is not steady is passed over in some text. -/
theorem exists_passesOver {u b w : List Char} (hu : u ≠ []) (hb : b ≠ []) (hub : needle = u ++ b)
    (hbw : needle = b ++ w)
    (hfront : needle.head?.any isWordChar ∨ needle.getLast?.any isWordChar ∧ w.head?.any isWordChar)
    (hno : ¬(needle.head?.any isWordChar ∧ u.getLast?.any isWordChar)) :
    ∃ s, IsFirst (IsWordAt needle (['_'] ++ (needle ++ w))) (byteLength ['_']) s ∧
      PassesOver needle (['_'] ++ (needle ++ w)) (byteLength ['_']) s := by
  -- Behind an underscore, with a second occurrence that begins inside the first one.
  have htext : ['_'] ++ (needle ++ w) = ['_'] ++ u ++ (needle ++ []) := by
    have : needle ++ w = u ++ needle :=
      calc needle ++ w = u ++ b ++ w := congrArg (· ++ w) hub
        _ = u ++ needle := by rw [List.append_assoc, ← hbw]
    rw [this, List.append_nil, List.append_assoc]
  have hfirst := isFirst_append ['_'] needle w
  have hcuts := (not_isWordAt_append_iff ['_'] needle w).mpr
    (hfront.imp_left fun h => ⟨h, by decide⟩)
  have hword : IsWordAt needle (['_'] ++ (needle ++ w))
      (Span.ofLength (byteLength (['_'] ++ u)) (byteLength needle)) := by
    by_contra hcuts'
    rw [htext, not_isWordAt_append_iff, List.getLast?_append_of_ne_nil _ hu] at hcuts'
    rcases hcuts' with h | ⟨-, h⟩
    · exact hno h
    · simp at h
  have hle : byteLength ['_'] ≤ byteLength (['_'] ++ u) := by
    rw [byteLength_append]
    exact Nat.le_add_right _ _
  obtain ⟨s, hs⟩ := exists_isFirst hword hle
  have hlt : s.start < byteLength ['_'] + byteLength needle := by
    have hpos : 0 < byteLength b := Nat.pos_of_ne_zero fun h => hb (eq_nil_of_byteLength_eq_zero h)
    have hsecond := hs.le _ hword hle
    rw [Span.ofLength_start, byteLength_append] at hsecond
    rw [hub, byteLength_append]
    omega
  refine ⟨s, hs, _, .first hfirst, Nat.lt_of_le_of_ne hs.le_start fun heq => hcuts ?_, hlt⟩
  exact hs.holds.occurs.eq_of_start_eq hfirst.holds heq.symm ▸ hs.holds

/-- **What is found right in every text**: exactly what is steady. -/
theorem forall_finds_iff : (∀ text start, IsCut text start →
    Finds (IsWordAt needle text) start (findWord? text needle start)) ↔ IsSteady needle := by
  constructor
  · intro hfinds u b w hu hb hub hbw hfront
    by_contra hno
    obtain ⟨s, hs, hpass⟩ := exists_passesOver hu hb hub hbw hfront hno
    have hcut : IsCut (['_'] ++ (needle ++ w)) (byteLength ['_']) := ⟨_, _, rfl, rfl⟩
    exact (finds_findWord?_iff hcut).mp (hfinds _ _ hcut) s hs hpass
  · intro hsteady text start hcut
    exact (finds_findWord?_iff hcut).mpr fun s hs => hsteady.not_passesOver hs

/-- Names, and other texts of characters that words are made of, are found right in every text. -/
theorem isSteady_of_forall_isWordChar (h : ∀ c ∈ needle, isWordChar c = true) :
    IsSteady needle := by
  rintro u b w hu - rfl - -
  rw [List.head?_append_of_ne_nil _ hu, List.head?_eq_some_head hu,
    List.getLast?_eq_some_getLast hu]
  exact ⟨h _ (List.mem_append_left _ (List.head_mem hu)),
    h _ (List.mem_append_left _ (List.getLast_mem hu))⟩

end

end Text

/-! ## Leaves of a sketch -/

namespace Sketch

open Text

/-- **Where a leaf is put**: for every text, and from every offset between two characters, at the
occurrence that the search comes to and that cuts no word. This is the first such occurrence in the
text, and the search fails only if there is none, exactly unless an occurrence that the search comes
to begins before the first one and goes on into it. -/
theorem finds_findAfter_iff (t : Tree) (text : String) {start : Nat}
    (h : String.Pos.Raw.IsValid t.source ⟨start⟩) :
    (∀ s, findAfter t text start = .ok s ↔ Takes text.toList t.source.toList start s) ∧
      (Finds (IsWordAt text.toList t.source.toList) start (findAfter t text start).toOption ↔
        ∀ s, IsFirst (IsWordAt text.toList t.source.toList) start s →
          ¬PassesOver text.toList t.source.toList start s) := by
  have hcut : IsCut t.source.toList start := isValid_iff.mp h
  have hanswer : (findAfter t text start).toOption =
      findWord? t.source.toList text.toList start := by
    rw [findAfter]
    cases findWord? t.source.toList text.toList start <;> rfl
  refine ⟨fun s => ?_, hanswer ▸ finds_findWord?_iff hcut⟩
  rw [← findWord?_eq_some_iff hcut, findAfter]
  cases findWord? t.source.toList text.toList start <;> simp [orFail]

/-- A dotted name behind an occurrence that continues a word. -/
theorem finds_findAfter_iff_chain :
    String.Pos.Raw.IsValid "éa.a a.a" ⟨2⟩ ∧
      Takes "a.a".toList "éa.a a.a".toList 2 ⟨6, 9⟩ ∧
      Finds (IsWordAt "a.a".toList "éa.a a.a".toList) 2
        (findAfter ⟨"a.avt", "éa.a a.a", #[], none⟩ "a.a" 2).toOption := by
  have h : String.Pos.Raw.IsValid "éa.a a.a" ⟨2⟩ :=
    isValid_iff.mpr ⟨['é'], "a.a a.a".toList, by decide +kernel⟩
  have hfirst : ∀ n < 6, ¬IsWordAt "a.a".toList "éa.a a.a".toList (Span.ofLength n 3) := by
    decide +kernel
  have hapart : ∀ n < 6, 3 < n → ¬OccursAt "a.a".toList "éa.a a.a".toList (Span.ofLength n 3) := by
    decide +kernel
  have hall := finds_findAfter_iff ⟨"a.avt", "éa.a a.a", #[], none⟩ "a.a" h
  refine ⟨h, (hall.1 ⟨6, 9⟩).mp (by decide +kernel), hall.2.mpr ?_⟩
  rintro s hs ⟨v, hv, hlt, hgt⟩
  have hle : s.start ≤ 6 := hs.le ⟨6, 9⟩ (by decide +kernel) (by decide)
  have hstart : ¬s.start < 6 := fun h => hfirst _ h (hs.holds.occurs.ofLength_eq ▸ hs.holds)
  have hstop : v.stop = v.start + 3 := hv.occurs.stop_eq
  exact hapart v.start (by omega) (by omega) (hv.occurs.ofLength_eq ▸ hv.occurs)

/-- The second `a.a` of `xa.a.a` cuts no word, but the first one does and goes on into it. -/
theorem not_finds_overlap :
    findAfter ⟨"a.avt", "xa.a.a", #[], none⟩ "a.a" 0 = .error (.notFound "a.a" 0) ∧
      IsFirst (IsWordAt "a.a".toList "xa.a.a".toList) 0 ⟨3, 6⟩ ∧
      ¬Finds (IsWordAt "a.a".toList "xa.a.a".toList) 0
        (findAfter ⟨"a.avt", "xa.a.a", #[], none⟩ "a.a" 0).toOption := by
  have hnone : findAfter ⟨"a.avt", "xa.a.a", #[], none⟩ "a.a" 0 = .error (.notFound "a.a" 0) := by
    decide +kernel
  have hword : IsWordAt "a.a".toList "xa.a.a".toList ⟨3, 6⟩ := by decide +kernel
  have hbefore : ∀ n < 3, ¬IsWordAt "a.a".toList "xa.a.a".toList (Span.ofLength n 3) := by
    decide +kernel
  refine ⟨hnone, ⟨hword, Nat.zero_le _, fun t ht _ => ?_⟩, fun hfinds => ?_⟩
  · exact Nat.le_of_not_lt fun h => hbefore _ h (ht.occurs.ofLength_eq ▸ ht)
  · rw [hnone] at hfinds
    exact Nat.not_lt_zero _ (hfinds _ hword)

end Sketch

end Bindery
