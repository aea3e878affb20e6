import Bindery.Text.Edit

/-!
# Edits in place

The passes of `Edit.applyAll` and `Edit.applyPossible` over the whole text: every edit is spliced
into the text as it stands by then. A splice breaks off where an end of its span is not between two
characters of that text, however the span lies in the base text.

* `Text.splice?`: one part of a text replaced; **`Text.splice?_eq_some_iff`** says when it succeeds.
* `Edit.spliceAll?`: every edit, or the first reason why one cannot be applied.
* `Edit.splicePossible?`: the edits that can be applied, and those that were passed over.
-/

namespace Bindery

namespace Text

/-- Put `new` in the place of a span, unless it is reversed, leaves the text or cuts a character. -/
def splice? (cs : List Char) (s : Span) (new : List Char) : Option (List Char) :=
  if s.start ≤ s.stop then do
    let front ← take? s.start cs
    let back ← drop? s.stop cs
    return front ++ new ++ back
  else none

/-- A splice succeeds exactly if it takes a part out of the text; the rest is kept. -/
theorem splice?_eq_some_iff {cs new ds : List Char} {s : Span} :
    splice? cs s new = some ds ↔ ∃ as bs rest, cs = as ++ bs ++ rest ∧ s.start = byteLength as ∧
      s.stop = byteLength as + byteLength bs ∧ ds = as ++ new ++ rest := by
  unfold splice?
  constructor
  · intro h
    split at h
    · rename_i hle
      obtain ⟨front, hf, h⟩ := Option.bind_eq_some_iff.1 h
      obtain ⟨back, hb, h⟩ := Option.bind_eq_some_iff.1 h
      obtain ⟨⟨_, rest⟩, hc, rfl⟩ := Option.map_eq_some_iff.1 hf
      obtain ⟨⟨upTo, _⟩, hc', rfl⟩ := Option.map_eq_some_iff.1 hb
      obtain ⟨rfl, hs⟩ := cut?_eq_some_iff.1 hc
      obtain ⟨he, hs'⟩ := cut?_eq_some_iff.1 hc'
      obtain ⟨bs, rfl, rfl⟩ := exists_append_of_byteLength_le he (by omega)
      exact ⟨_, bs, _, by simp, hs, by rw [hs', byteLength_append], (Option.some.inj h).symm⟩
    · simp at h
  · rintro ⟨as, bs, rest, rfl, hs, he, rfl⟩
    have hfront : take? s.start (as ++ bs ++ rest) = some as := by
      rw [hs, take?, List.append_assoc, cut?_byteLength_append]
      rfl
    have hback : drop? s.stop (as ++ bs ++ rest) = some rest := by
      rw [he, ← byteLength_append, drop?, cut?_byteLength_append]
      rfl
    rw [if_pos (by omega), hfront, hback]
    rfl

end Text

namespace Edit

open Text

/-- Edits in order of application, the text as it stands, and the span that was replaced last.
`none` if a splice breaks off. -/
def spliceEach? (base : List Char) :
    List Edit → List Char → Option Span → Option (Except EditError (List Char))
  | [], text, _ => some (.ok text)
  | e :: es, text, last =>
    if inBounds base e.span then
      match last.filter (·.start < e.span.stop) with
      | some previous => some (.error (.overlap e.span previous))
      | none => (splice? text e.span e.newText.toList).bind (spliceEach? base es · (some e.span))
    else some (.error (.outOfBounds e.span (byteLength base)))

/-- Splice every edit into the text, or name the first that cannot be applied. -/
def spliceAll? (text : String) (edits : List Edit) : Option (Except EditError String) :=
  (spliceEach? text.toList (sort edits) text.toList none).map (·.map String.ofList)

/-- Edits in order of application, the text as it stands, and the start of the span that was
replaced last. An edit that reaches beyond it or lies outside the base text is passed over. -/
def spliceSome? (base : List Char) :
    List Edit → List Char → Option Nat → Option (List Char × List Edit)
  | [], text, _ => some (text, [])
  | e :: es, text, lowest =>
    if lowest.any (· < e.span.stop) || !inBounds base e.span then
      (spliceSome? base es text lowest).map fun r => (r.1, e :: r.2)
    else
      (splice? text e.span e.newText.toList).bind (spliceSome? base es · (some e.span.start))

/-- Splice those edits into the text that can be applied, and list those passed over. -/
def splicePossible? (text : String) (edits : List Edit) : Option (String × List Edit) :=
  (spliceSome? text.toList (sort edits) text.toList none).map fun r => (String.ofList r.1, r.2)

end Edit

end Bindery
