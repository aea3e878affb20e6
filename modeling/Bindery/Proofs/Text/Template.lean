import Mathlib.Data.List.Basic
import Mathlib.Data.List.Infix
import Bindery.Diagnostic

/-!
# Templates and their arguments

A template filled in argument by argument, beside the template with all arguments put in at once.
The two differ if text that has been put in makes a new placeholder, by itself or together with what
stands around it.

* `Text.placeholder_prefix_iff`: no placeholder is the beginning of another one.
* `Text.Part`, `Text.parts`: a template read from left to right, as characters and placeholders;
  `Text.parts_induction`.
* `Text.placed`, `Text.substitute`: a template with its first arguments put in, or with all of them.
* `Text.occurrences`: how often a piece of text occurs; **`Text.occurrences_template`**.
* **`Text.replaceAll_read`**: what one argument does to a template with those before it put in.
* **`Text.fill_eq_substitute`**: filling in is substitution where no placeholder arises.
* **`Problem.message_eq_substitute`**: the messages, for arguments without opening braces.
-/

namespace Bindery

namespace Text

/-! ## Placeholders -/

theorem placeholder_eq (i : Nat) :
    placeholder i = '\x7b' :: (Nat.toDigits 10 i ++ ['\x7d']) := by
  rw [placeholder, Nat.toString_eq_repr, Nat.toList_repr]
  rfl

theorem isDigit_of_mem {i : Nat} {c : Char} (h : c ∈ Nat.toDigits 10 i) : c.isDigit = true :=
  Nat.isDigit_of_mem_toDigits (by decide) (by decide) h

theorem placeholder_ne_nil (i : Nat) : placeholder i ≠ [] := by
  rw [placeholder_eq]
  exact List.cons_ne_nil _ _

theorem placeholder_prefix_iff {i k : Nat} {cs : List Char} :
    placeholder i <+: placeholder k ++ cs ↔ i = k := by
  constructor
  · rintro ⟨ds, hds⟩
    rw [placeholder_eq, placeholder_eq, List.cons_append, List.cons_append, List.cons.injEq,
      List.append_assoc, List.append_assoc] at hds
    -- The digits end at the first brace.
    have hdigits := congrArg (List.takeWhile Char.isDigit) hds.2
    rw [List.takeWhile_append_of_pos fun _ => isDigit_of_mem,
      List.takeWhile_append_of_pos fun _ => isDigit_of_mem] at hdigits
    have hsame : Nat.toDigits 10 i = Nat.toDigits 10 k := by simpa using hdigits
    have hvalue := congrArg (Nat.ofDigitChars 10 · 0) hsame
    simpa [Nat.ofDigitChars_toDigits] using hvalue
  · rintro rfl
    exact List.prefix_append _ _

/-! ## Templates read from left to right -/

/-- The number of the placeholder at the front of a text, among the first `count`. -/
def opening? (count : Nat) (cs : List Char) : Option Nat :=
  (List.range count).find? fun i => (placeholder i).isPrefixOf cs

/-- A part of a template. -/
inductive Part where
  /-- A character that stays. -/
  | kept (c : Char)
  /-- The placeholder of an argument. -/
  | slot (i : Nat)
  deriving DecidableEq, Repr

/-- The parts of a template for `count` arguments; `covered` characters still belong to the
placeholder met last. -/
def partsFrom (count : Nat) : Nat → List Char → List Part
  | _, [] => []
  | covered + 1, _ :: cs => partsFrom count covered cs
  | 0, c :: cs =>
    match opening? count (c :: cs) with
    | some i => .slot i :: partsFrom count ((placeholder i).length - 1) cs
    | none => .kept c :: partsFrom count 0 cs

/-- The parts of a template for `count` arguments. -/
def parts (count : Nat) (template : List Char) : List Part := partsFrom count 0 template

/-- What a part reads as. The placeholder of an argument that is not given is left as it is. -/
def Part.read (args : List String) : Part → List Char
  | kept c => [c]
  | slot i => (args[i]?.map String.toList).getD (placeholder i)

/-- The template with the first `n` of its arguments put in, all at once. -/
def placed (template : String) (args : List String) (n : Nat) : List Char :=
  (parts args.length template.toList).flatMap (Part.read (args.take n))

/-- The template with all of its arguments put in at once: **simultaneous substitution**. -/
def substitute (template : String) (args : List String) : String :=
  String.ofList (placed template args args.length)

/-- How often a piece of text occurs in a text. -/
def occurrences (needle text : List Char) : Nat := text.tails.countP (needle.isPrefixOf ·)

section

variable {count i k : Nat} {c : Char} {cs as bs needle : List Char} {args : List String}
  {ps : List Part}

theorem opening?_placeholder (hk : k < count) : opening? count (placeholder k ++ cs) = some k := by
  rw [opening?, List.find?_range_eq_some]
  refine ⟨List.isPrefixOf_iff_prefix.mpr (List.prefix_append _ _), List.mem_range.mpr hk,
    fun j hj => ?_⟩
  rw [Bool.not_eq_true', ← Bool.not_eq_true, List.isPrefixOf_iff_prefix, placeholder_prefix_iff]
  omega

theorem placeholder_prefix_of_opening? (h : opening? count cs = some k) :
    k < count ∧ placeholder k <+: cs := by
  rw [opening?, List.find?_range_eq_some] at h
  exact ⟨List.mem_range.mp h.2.1, List.isPrefixOf_iff_prefix.mp h.1⟩

theorem not_prefix_of_opening? (h : opening? count cs = none) (hk : k < count) :
    ¬placeholder k <+: cs := fun hp => by
  have := List.find?_eq_none.mp h k (List.mem_range.mpr hk)
  exact this (List.isPrefixOf_iff_prefix.mpr hp)

theorem partsFrom_drop (count n : Nat) (cs : List Char) :
    partsFrom count n cs = parts count (cs.drop n) := by
  induction n generalizing cs with
  | zero => rfl
  | succ n ih =>
    cases cs with
    | nil => rfl
    | cons c cs => exact ih cs

theorem parts_placeholder (hk : k < count) :
    parts count (placeholder k ++ cs) = .slot k :: parts count cs := by
  have hopen : opening? count (placeholder k ++ cs) = some k := opening?_placeholder hk
  rw [placeholder_eq, List.cons_append] at hopen
  have hlength : (placeholder k).length - 1 = (Nat.toDigits 10 k ++ ['\x7d']).length := by
    rw [placeholder_eq, List.length_cons, Nat.add_sub_cancel]
  rw [parts, placeholder_eq, List.cons_append, partsFrom, hopen]
  simp only [hlength, partsFrom_drop, List.drop_left]

theorem parts_kept (h : opening? count (c :: cs) = none) :
    parts count (c :: cs) = .kept c :: parts count cs := by
  rw [parts, partsFrom, h]
  rfl

/-- A template ends, or goes on with a placeholder, or with a character that opens none. -/
theorem parts_induction (count : Nat) {P : List Char → Prop} (nil : P [])
    (slot : ∀ k cs, k < count → P cs → P (placeholder k ++ cs))
    (kept : ∀ c cs, opening? count (c :: cs) = none → P cs → P (c :: cs)) (cs : List Char) :
    P cs := by
  induction hn : cs.length using Nat.strong_induction_on generalizing cs with
  | _ n ih =>
    subst hn
    cases cs with
    | nil => exact nil
    | cons c cs =>
      cases h : opening? count (c :: cs) with
      | none => exact kept c cs h (ih _ (by simp) cs rfl)
      | some k =>
        obtain ⟨hk, rest, hrest⟩ := placeholder_prefix_of_opening? h
        have hlength := congrArg List.length hrest
        rw [List.length_append, placeholder_eq, List.length_cons, List.length_cons] at hlength
        rw [← hrest]
        exact slot k rest hk (ih _ (by rw [List.length_cons]; omega) rest rfl)

theorem placed_zero (template : String) (args : List String) :
    placed template args 0 = template.toList := by
  rw [placed, List.take_zero]
  induction template.toList using parts_induction args.length with
  | nil => rfl
  | slot k cs hk ih =>
    rw [parts_placeholder hk, List.flatMap_cons, ih]
    rfl
  | kept c cs h ih =>
    rw [parts_kept h, List.flatMap_cons, ih]
    rfl

/-! ## Occurrences -/

theorem occurrences_cons (needle : List Char) (c : Char) (cs : List Char) :
    occurrences needle (c :: cs) =
      occurrences needle cs + if needle <+: c :: cs then 1 else 0 := by
  rw [occurrences, List.tails_cons, List.countP_cons]
  simp only [List.isPrefixOf_iff_prefix, occurrences]

theorem occurrences_le_append (needle as bs : List Char) :
    occurrences needle bs ≤ occurrences needle (as ++ bs) := by
  induction as with
  | nil => exact Nat.le_refl _
  | cons c as ih =>
    rw [List.cons_append, occurrences_cons]
    omega

theorem replaceAll_append (replacement : List Char)
    (h : occurrences needle (as ++ bs) = occurrences needle bs) :
    replaceAll needle replacement (as ++ bs) = as ++ replaceAll needle replacement bs := by
  induction as with
  | nil => rfl
  | cons c as ih =>
    rw [List.cons_append, occurrences_cons] at h
    have hle := occurrences_le_append needle as bs
    have hno : ¬needle <+: c :: (as ++ bs) := fun hp => by
      rw [if_pos hp] at h
      omega
    rw [if_neg hno] at h
    have hkeep : needle.isPrefixOf (c :: (as ++ bs)) = false := by
      rwa [← Bool.not_eq_true, List.isPrefixOf_iff_prefix]
    rw [List.cons_append, replaceAll, replaceFrom, if_neg (by simp [hkeep])]
    exact congrArg (c :: ·) (ih h)

theorem occurrences_append (h : '\x7b' ∉ as) :
    occurrences (placeholder i) (as ++ bs) = occurrences (placeholder i) bs := by
  induction as with
  | nil => rfl
  | cons c as ih =>
    rw [List.mem_cons, not_or] at h
    have hno : ¬placeholder i <+: c :: (as ++ bs) := fun hp => by
      rw [placeholder_eq, List.cons_prefix_cons] at hp
      exact h.1 hp.1
    rw [List.cons_append, occurrences_cons, if_neg hno, ih h.2, Nat.add_zero]

theorem occurrences_placeholder (i k : Nat) (cs : List Char) :
    occurrences (placeholder i) (placeholder k ++ cs) =
      occurrences (placeholder i) cs + if i = k then 1 else 0 := by
  have hbrace : '\x7b' ∉ Nat.toDigits 10 k ++ ['\x7d'] := by
    rw [List.mem_append, not_or]
    exact ⟨fun h => absurd (isDigit_of_mem h) (by decide), by decide⟩
  have hp : placeholder i <+: '\x7b' :: (Nat.toDigits 10 k ++ ['\x7d'] ++ cs) ↔ i = k := by
    rw [← List.cons_append, ← placeholder_eq]
    exact placeholder_prefix_iff
  rw [placeholder_eq k, List.cons_append, occurrences_cons, occurrences_append hbrace]
  simp only [hp]

/-- The placeholders that occur in a template are those that are read. -/
theorem occurrences_template (hi : i < count) (template : List Char) :
    occurrences (placeholder i) template = (parts count template).count (.slot i) := by
  induction template using parts_induction count with
  | nil =>
    have : ¬(placeholder i).isPrefixOf [] := by
      rw [List.isPrefixOf_iff_prefix, List.prefix_nil]
      exact placeholder_ne_nil i
    rw [occurrences, List.tails, List.countP_singleton, if_neg this]
    rfl
  | slot k cs hk ih =>
    rw [parts_placeholder hk, occurrences_placeholder, ih, List.count_cons]
    simp only [beq_iff_eq, Part.slot.injEq, eq_comm (a := k)]
  | kept c cs h ih =>
    rw [parts_kept h, occurrences_cons, if_neg (not_prefix_of_opening? h hi), ih,
      List.count_cons_of_ne (by simp)]
    rfl

/-! ## One argument after the other -/

theorem Part.read_take_succ {p : Part} (hp : p ≠ .slot i) :
    p.read (args.take (i + 1)) = p.read (args.take i) := by
  cases p with
  | kept c => rfl
  | slot k =>
    have hk : k ≠ i := fun h => hp (h ▸ rfl)
    have : (args.take (i + 1))[k]? = (args.take i)[k]? := by
      rw [List.getElem?_take, List.getElem?_take]
      split_ifs <;> first | rfl | omega
    rw [read, read, this]

theorem Part.read_slot_take_self (args : List String) (i : Nat) :
    (Part.slot i).read (args.take i) = placeholder i := by
  rw [read, List.getElem?_take, if_neg (Nat.lt_irrefl i)]
  rfl

theorem Part.read_slot_take_succ (hi : i < args.length) :
    (Part.slot i).read (args.take (i + 1)) = args[i].toList := by
  rw [read, List.getElem?_take, if_pos (Nat.lt_succ_self i), List.getElem?_eq_getElem hi]
  rfl

/-- The placeholders of a template still occur while their turn is to come. -/
theorem count_slot_le (args : List String) (i : Nat) (ps : List Part) :
    ps.count (.slot i) ≤ occurrences (placeholder i) (ps.flatMap (Part.read (args.take i))) := by
  induction ps with
  | nil => exact Nat.zero_le _
  | cons p ps ih =>
    rw [List.flatMap_cons]
    by_cases hp : p = .slot i
    · rw [hp, Part.read_slot_take_self, occurrences_placeholder, if_pos rfl, List.count_cons_self]
      omega
    · rw [List.count_cons_of_ne hp]
      exact ih.trans (occurrences_le_append _ _ _)

/-- **One argument**, in a template with those before it put in: if its placeholder occurs where the
template has it and nowhere else, then just these are replaced. -/
theorem replaceAll_read (hi : i < args.length)
    (h : occurrences (placeholder i) (ps.flatMap (Part.read (args.take i))) = ps.count (.slot i)) :
    replaceAll (placeholder i) args[i].toList (ps.flatMap (Part.read (args.take i))) =
      ps.flatMap (Part.read (args.take (i + 1))) := by
  induction ps with
  | nil => rfl
  | cons p ps ih =>
    have hle := count_slot_le args i ps
    rw [List.flatMap_cons] at h
    rw [List.flatMap_cons, List.flatMap_cons]
    by_cases hp : p = .slot i
    · subst hp
      rw [Part.read_slot_take_self, occurrences_placeholder, if_pos rfl, List.count_cons_self] at h
      rw [Part.read_slot_take_self, replaceAll_append_needle (placeholder_ne_nil i),
        Part.read_slot_take_succ hi, ih (Nat.succ.inj h)]
    · rw [List.count_cons_of_ne hp] at h
      have hrest := occurrences_le_append (placeholder i) (p.read (args.take i))
        (ps.flatMap (Part.read (args.take i)))
      rw [replaceAll_append _ (by omega), Part.read_take_succ hp, ih (by omega)]

theorem fillFrom_placed (template : String)
    (h : ∀ i < args.length, occurrences (placeholder i) (placed template args i) =
      occurrences (placeholder i) template.toList) {rest : List String} (hrest : args.drop i = rest)
    (hi : i ≤ args.length) :
    fillFrom i (placed template args i) rest = placed template args args.length := by
  induction rest generalizing i with
  | nil =>
    have : args.length ≤ i := List.drop_eq_nil_iff.mp hrest
    rw [fillFrom, Nat.le_antisymm hi this]
  | cons arg rest ih =>
    have hlt : i < args.length := by
      by_contra hge
      rw [List.drop_eq_nil_of_le (Nat.le_of_not_lt hge)] at hrest
      cases hrest
    rw [List.drop_eq_getElem_cons hlt, List.cons.injEq] at hrest
    have hcount := (h i hlt).trans (occurrences_template hlt _)
    rw [fillFrom, ← hrest.1, placed, replaceAll_read hlt hcount]
    exact ih hrest.2 hlt

/-- No placeholder arises from arguments without opening braces, in a template whose opening braces
all belong to placeholders. -/
theorem occurrences_read (hargs : ∀ a ∈ args, '\x7b' ∉ a.toList) (hkept : .kept '\x7b' ∉ ps) :
    occurrences (placeholder i) (ps.flatMap (Part.read (args.take i))) = ps.count (.slot i) := by
  induction ps with
  | nil => exact occurrences_template (Nat.lt_succ_self i : i < i + 1) []
  | cons p ps ih =>
    rw [List.mem_cons, not_or] at hkept
    rw [List.flatMap_cons]
    by_cases hp : p = .slot i
    · rw [hp, Part.read_slot_take_self, occurrences_placeholder, if_pos rfl, ih hkept.2,
        List.count_cons_self]
    rw [List.count_cons_of_ne hp, ← ih hkept.2]
    cases p with
    | kept c =>
      have hc : '\x7b' ≠ c := fun h => hkept.1 (h ▸ rfl)
      exact occurrences_append (show '\x7b' ∉ [c] by simpa using hc)
    | slot k =>
      rw [Part.read]
      cases hk : (args.take i)[k]? with
      | some a =>
        exact occurrences_append (hargs a (List.mem_of_mem_take (List.mem_of_getElem? hk)))
      | none =>
        have hne : i ≠ k := fun h => hp (h ▸ rfl)
        rw [Option.map_none, Option.getD_none, occurrences_placeholder, if_neg hne, Nat.add_zero]

end

/-- **Filling in is substitution** where no placeholder arises: if, at the turn of each argument,
its placeholder occurs as often as in the template, then the result is the template with every
placeholder of an argument replaced by that argument, and all other text kept. -/
theorem fill_eq_substitute (template : String) (args : List String)
    (h : ∀ i < args.length, occurrences (placeholder i) (placed template args i) =
      occurrences (placeholder i) template.toList) :
    fill template args = substitute template args := by
  rw [fill, substitute, ← fillFrom_placed template h (List.drop_zero) (Nat.zero_le _), placed_zero]

/-- Braces in arguments do no harm while they make no placeholder of a later argument. -/
theorem fill_eq_substitute_looseBraces :
    (∀ i < 3, occurrences (placeholder i)
      (placed "\x7b1\x7d: \x7b0\x7d \x7b2\x7d" ["\x7b1", "\x7b0\x7d", "\x7d\x7b"] i) =
        occurrences (placeholder i) "\x7b1\x7d: \x7b0\x7d \x7b2\x7d".toList) ∧
    fill "\x7b1\x7d: \x7b0\x7d \x7b2\x7d" ["\x7b1", "\x7b0\x7d", "\x7d\x7b"] =
      substitute "\x7b1\x7d: \x7b0\x7d \x7b2\x7d" ["\x7b1", "\x7b0\x7d", "\x7d\x7b"] ∧
    substitute "\x7b1\x7d: \x7b0\x7d \x7b2\x7d" ["\x7b1", "\x7b0\x7d", "\x7d\x7b"] =
      "\x7b0\x7d: \x7b1 \x7d\x7b" := by
  have h : ∀ i < 3, occurrences (placeholder i)
      (placed "\x7b1\x7d: \x7b0\x7d \x7b2\x7d" ["\x7b1", "\x7b0\x7d", "\x7d\x7b"] i) =
        occurrences (placeholder i) "\x7b1\x7d: \x7b0\x7d \x7b2\x7d".toList := by decide +kernel
  exact ⟨h, fill_eq_substitute _ _ h, by decide +kernel⟩

/-- An argument that reads as the placeholder of the next one is replaced in its turn. -/
theorem not_fill_nested :
    fill "\x7b0\x7d \x7b1\x7d" ["\x7b1\x7d", "x"] = "x x" ∧
      substitute "\x7b0\x7d \x7b1\x7d" ["\x7b1\x7d", "x"] = "\x7b1\x7d x" := by
  decide +kernel

end Text

/-! ## Messages -/

/-- The opening braces in the wording of problems all belong to placeholders. -/
theorem Problem.kept_not_mem_parts (p : Problem) :
    .kept '\x7b' ∉ Text.parts p.arguments.length p.template.toList := by
  cases p <;> simp only [arguments, template, List.length_cons, List.length_nil] <;> decide +kernel

/-- **What the user reads is the wording with the arguments in place**, if none of these holds an
opening brace. -/
theorem Problem.message_eq_substitute (p : Problem) (h : ∀ a ∈ p.arguments, '\x7b' ∉ a.toList) :
    p.message = Text.substitute p.template p.arguments := by
  have hcount : ∀ i < p.arguments.length, Text.occurrences (Text.placeholder i)
      (Text.placed p.template p.arguments i) =
        Text.occurrences (Text.placeholder i) p.template.toList := fun i hi =>
    (Text.occurrences_read h p.kept_not_mem_parts).trans (Text.occurrences_template hi _).symm
  rw [message, Text.fill, Text.substitute,
    ← Text.fillFrom_placed p.template hcount List.drop_zero (Nat.zero_le _), Text.placed_zero]

end Bindery
