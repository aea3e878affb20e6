import Bindery.Text.Span

/-!
# Text by byte offset

Offsets count the bytes of the UTF-8 form, while text is a list of characters, so an offset may
fall inside a character. Cutting there fails.

* `byteLength`: the size of a list of characters.
* `cut?`: the two parts of a text at an offset; **`cut?_eq_some_iff`** says when it succeeds.
* `slice?`: the characters inside a span; **`sliceString?_eq`**: the same for a string, by bytes.
-/

namespace Bindery.Text

/-- The number of bytes of the UTF-8 form. -/
def byteLength : List Char → Nat
  | [] => 0
  | c :: cs => c.utf8Size + byteLength cs

/-- The parts before and after byte `n`, unless `n` is inside a character or past the end. -/
def cut? : Nat → List Char → Option (List Char × List Char)
  | 0, cs => some ([], cs)
  | _ + 1, [] => none
  | n + 1, c :: cs =>
    if c.utf8Size ≤ n + 1 then
      (cut? (n + 1 - c.utf8Size) cs).map fun p => (c :: p.1, p.2)
    else none

/-- The characters before byte `n`. -/
def take? (n : Nat) (cs : List Char) : Option (List Char) := (cut? n cs).map Prod.fst

/-- The characters from byte `n` on. -/
def drop? (n : Nat) (cs : List Char) : Option (List Char) := (cut? n cs).map Prod.snd

/-- The characters inside a span that is not reversed and whose ends are between characters. -/
def slice? (cs : List Char) (s : Span) : Option (List Char) :=
  if s.start ≤ s.stop then (drop? s.start cs).bind (take? (s.stop - s.start)) else none

/-- The part of a string inside a span, found by its bytes. -/
def sliceString? (text : String) (s : Span) : Option String :=
  if h : String.Pos.Raw.IsValid text ⟨s.start⟩ ∧ String.Pos.Raw.IsValid text ⟨s.stop⟩ then
    if s.start ≤ s.stop then some (text.extract ⟨⟨s.start⟩, h.1⟩ ⟨⟨s.stop⟩, h.2⟩) else none
  else none

/-! ## Laws -/

@[simp] theorem byteLength_append (as bs : List Char) :
    byteLength (as ++ bs) = byteLength as + byteLength bs := by
  induction as with
  | nil => simp [byteLength]
  | cons c cs ih => simp [byteLength, ih, Nat.add_assoc]

@[simp] theorem cut?_zero (cs : List Char) : cut? 0 cs = some ([], cs) := by
  cases cs <;> rfl

theorem cut?_byteLength_append (as bs : List Char) :
    cut? (byteLength as) (as ++ bs) = some (as, bs) := by
  induction as with
  | nil => simp [byteLength]
  | cons c cs ih =>
    have hc : 0 < c.utf8Size := Char.utf8Size_pos c
    obtain ⟨n, hn⟩ : ∃ n, byteLength (c :: cs) = n + 1 :=
      ⟨byteLength (c :: cs) - 1, by simp only [byteLength]; omega⟩
    have hsub : n + 1 - c.utf8Size = byteLength cs := by simp only [byteLength] at hn; omega
    have hle : c.utf8Size ≤ n + 1 := by simp only [byteLength] at hn; omega
    rw [hn, List.cons_append, cut?, if_pos hle, hsub, ih]
    rfl

/-- **A cut succeeds exactly between two characters**, and loses nothing. -/
theorem cut?_eq_some_iff {n : Nat} {cs as bs : List Char} :
    cut? n cs = some (as, bs) ↔ cs = as ++ bs ∧ n = byteLength as := by
  constructor
  · intro h
    fun_induction cut? n cs generalizing as bs with
    | case1 cs => simp only [Option.some.injEq, Prod.mk.injEq] at h; simp [← h.1, ← h.2, byteLength]
    | case2 => simp at h
    | case3 n c cs hle ih =>
      obtain ⟨⟨p, q⟩, hp, he⟩ := Option.map_eq_some_iff.1 h
      simp only [Prod.mk.injEq] at he
      obtain ⟨rfl, rfl⟩ := he
      obtain ⟨rfl, hn⟩ := ih hp
      refine ⟨rfl, ?_⟩
      simp only [byteLength]
      omega
    | case4 => simp at h
  · rintro ⟨rfl, rfl⟩
    exact cut?_byteLength_append as bs

/-! ## Slices of strings -/

theorem size_utf8Encode (cs : List Char) : cs.utf8Encode.size = byteLength cs := by
  induction cs with
  | nil => simp [byteLength]
  | cons c cs ih =>
    rw [List.utf8Encode_cons, ByteArray.size_append, ih]
    simp [byteLength, List.utf8Encode_singleton]

theorem byteLength_toList (s : String) : byteLength s.toList = s.utf8ByteSize := by
  rw [← size_utf8Encode, String.utf8Encode_toList]
  rfl

theorem isValid_iff {text : String} {n : Nat} :
    String.Pos.Raw.IsValid text ⟨n⟩ ↔ ∃ as bs, text.toList = as ++ bs ∧ n = byteLength as := by
  rw [String.Pos.Raw.isValid_iff_exists_append]
  constructor
  · rintro ⟨s₁, s₂, rfl, h⟩
    refine ⟨s₁.toList, s₂.toList, String.toList_append, ?_⟩
    rw [byteLength_toList]
    simpa using congrArg String.Pos.Raw.byteIdx h
  · rintro ⟨as, bs, h, rfl⟩
    refine ⟨String.ofList as, String.ofList bs, ?_, ?_⟩
    · rw [← String.ofList_append, ← h, String.ofList_toList]
    · have : byteLength as = (String.ofList as).utf8ByteSize := by
        rw [← byteLength_toList, String.toList_ofList]
      rw [this]
      rfl

/-- The bytes from the end of `as` to the end of `bs` are those of `bs`. -/
theorem extract_utf8Encode (as bs cs : List Char) :
    (as ++ bs ++ cs).utf8Encode.extract (byteLength as) (byteLength as + byteLength bs) =
      bs.utf8Encode := by
  rw [List.utf8Encode_append, List.utf8Encode_append, ← size_utf8Encode, ← size_utf8Encode]
  apply ByteArray.ext
  simp [ByteArray.append_assoc, ← ByteArray.size_data]

/-- A slice succeeds exactly if it takes a part out of the text, from its start to its end. -/
theorem slice?_eq_some_iff {cs bs : List Char} {s : Span} :
    slice? cs s = some bs ↔ ∃ as rest, cs = as ++ bs ++ rest ∧ s.start = byteLength as ∧
      s.stop = byteLength as + byteLength bs := by
  unfold slice?
  constructor
  · intro h
    split at h
    · rename_i hle
      obtain ⟨tail, hd, ht⟩ := Option.bind_eq_some_iff.1 h
      obtain ⟨⟨as, _⟩, hc, rfl⟩ := Option.map_eq_some_iff.1 hd
      obtain ⟨⟨bs', rest⟩, hc', he'⟩ := Option.map_eq_some_iff.1 ht
      obtain rfl : bs' = bs := he'
      obtain ⟨rfl, hs⟩ := cut?_eq_some_iff.1 hc
      obtain ⟨he, hs'⟩ := cut?_eq_some_iff.1 hc'
      exact ⟨as, rest, by rw [List.append_assoc, ← he], hs, by omega⟩
    · simp at h
  · rintro ⟨as, rest, rfl, hs, he⟩
    have hlen : s.stop - s.start = byteLength bs := by omega
    rw [if_pos (by omega), hlen, hs, List.append_assoc]
    simp [drop?, take?, cut?_byteLength_append]

theorem eq_nil_of_byteLength_eq_zero {cs : List Char} (h : byteLength cs = 0) : cs = [] := by
  cases cs with
  | nil => rfl
  | cons c cs =>
    have := Char.utf8Size_pos c
    simp only [byteLength] at h
    omega

/-- Of two fronts of one text, the one with fewer bytes is the front of the other. -/
theorem exists_append_of_byteLength_le {as bs as' bs' : List Char} (h : as ++ bs = as' ++ bs')
    (hle : byteLength as ≤ byteLength as') : ∃ m, as' = as ++ m ∧ bs = m ++ bs' := by
  rcases List.append_eq_append_iff.1 h with ⟨m, h₁, h₂⟩ | ⟨m, h₁, h₂⟩
  · exact ⟨m, h₁, h₂⟩
  · subst h₁
    rw [byteLength_append] at hle
    obtain rfl := eq_nil_of_byteLength_eq_zero (by omega : byteLength m = 0)
    exact ⟨[], by simp, by simpa using h₂.symm⟩

/-- **Slicing a string by its bytes is slicing its characters.** -/
theorem sliceString?_eq (text : String) (s : Span) :
    sliceString? text s = (slice? text.toList s).map String.ofList := by
  unfold sliceString?
  cases h : slice? text.toList s with
  | some bs =>
    obtain ⟨as, rest, ht, hs, he⟩ := slice?_eq_some_iff.1 h
    have hv : String.Pos.Raw.IsValid text ⟨s.start⟩ ∧ String.Pos.Raw.IsValid text ⟨s.stop⟩ :=
      ⟨isValid_iff.2 ⟨as, bs ++ rest, by simp [ht], hs⟩,
        isValid_iff.2 ⟨as ++ bs, rest, ht, by simp [he]⟩⟩
    rw [dif_pos hv, if_pos (by omega), Option.map_some, Option.some.injEq]
    apply String.toByteArray_inj.1
    rw [String.toByteArray_extract, String.toByteArray_ofList, ← String.utf8Encode_toList, ht]
    simpa [hs, he] using extract_utf8Encode as bs rest
  | none =>
    rw [Option.map_none]
    split
    · rename_i hv
      split
      · rename_i hle
        obtain ⟨as, bs, ht, hs⟩ := isValid_iff.1 hv.1
        obtain ⟨as', bs', ht', hs'⟩ := isValid_iff.1 hv.2
        obtain ⟨m, rfl, rfl⟩ := exists_append_of_byteLength_le (ht.symm.trans ht') (by omega)
        have := slice?_eq_some_iff.2 ⟨as, bs', ht', hs, by simpa using hs'⟩
        simp [h] at this
      · rfl
    · rfl

end Bindery.Text
