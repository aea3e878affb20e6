import Bindery.Text.Slice

/-!
# Edits of a text

An `Edit` replaces a span of one base text. Edits are applied from the highest end to the lowest,
so that every offset still covered means the same place as in the base text: what has been written
is always the text from some offset `cut` on.

* `Edit.applyAll`: every edit, or the first reason why one cannot be applied.
* `Edit.applyPossible`: the edits that can be applied, and those that were passed over.
* `overlaps`: the spans that stand in the way of one another, in the same order.
-/

namespace Bindery

open Text

/-- Replace the text of a span. -/
structure Edit where
  span : Span
  newText : String
  deriving DecidableEq, Repr

/-- Why an edit cannot be applied. -/
inductive EditError where
  /-- The span is reversed, leaves the text or cuts a character in two. -/
  | outOfBounds (span : Span) (length : Nat)
  /-- The first span reaches into the second, which has been replaced already. -/
  | overlap (first second : Span)
  deriving DecidableEq, Repr

namespace EditError

/-- What is reported to the user. -/
def message : EditError → String
  | outOfBounds s n =>
    "edit " ++ s.key ++ " lies outside the text (length " ++ toString n ++ ")"
  | overlap s t => "edit " ++ s.key ++ " overlaps edit " ++ t.key

end EditError

/-! ## Order of application -/

/-- `s` is applied no later than `t`: it ends after `t`, or both end together and it does not
start before `t`. -/
def Span.appliedFirst (s t : Span) : Bool :=
  t.stop < s.stop || (s.stop == t.stop && t.start ≤ s.start)

namespace Edit

/-- Edits in the order in which they are applied; equal spans keep their order. -/
def sort (edits : List Edit) : List Edit :=
  edits.mergeSort fun a b => a.span.appliedFirst b.span

/-! ## Application -/

/-- A text of which the part from `cut` on has been edited. -/
structure Progress where
  /-- The base text. -/
  base : List Char
  /-- The bytes before this offset are still those of the base text. -/
  cut : Nat
  /-- What stands from there on now. -/
  tail : List Char
  /-- The edit applied last. -/
  last : Option Span

/-- Nothing has been edited yet. -/
def Progress.start (base : List Char) : Progress := ⟨base, byteLength base, [], none⟩

/-- The whole text, edited as far as it is. -/
def Progress.text (p : Progress) : List Char := (take? p.cut p.base).getD [] ++ p.tail

/-- A span that is not reversed and whose ends are between characters of the text. -/
def inBounds (base : List Char) (s : Span) : Bool := (slice? base s).isSome

/-- Apply one more edit. -/
def Progress.step (p : Progress) (e : Edit) : Except EditError Progress :=
  if inBounds p.base e.span then
    match p.last with
    | some previous =>
      if previous.start < e.span.stop then .error (.overlap e.span previous) else .ok (write p e)
    | none => .ok (write p e)
  else .error (.outOfBounds e.span (byteLength p.base))
where
  /-- The text between the edit and the edited part is kept. -/
  write (p : Progress) (e : Edit) : Progress :=
    { p with
      cut := e.span.start
      tail := e.newText.toList ++ (slice? p.base ⟨e.span.stop, p.cut⟩).getD [] ++ p.tail
      last := some e.span }

/-- Apply every edit, or name the first that cannot be applied. -/
def applyAll (text : String) (edits : List Edit) : Except EditError String :=
  ((sort edits).foldlM Progress.step (Progress.start text.toList)).map fun p =>
    String.ofList p.text

/-- One more edit, passed over if it cannot be applied. -/
def tryStep (state : Progress × List Edit) (e : Edit) : Progress × List Edit :=
  match state.1.step e with
  | .ok p => (p, state.2)
  | .error _ => (state.1, state.2 ++ [e])

/-- Apply the edits that can be applied, and list those passed over in order of application. -/
def applyPossible (text : String) (edits : List Edit) : String × List Edit :=
  let final := (sort edits).foldl tryStep (Progress.start text.toList, [])
  (String.ofList final.1.text, final.2)

end Edit

/-! ## Overlaps -/

/-- The pairs found so far, and the span that the next one is compared with. -/
structure OverlapScan where
  found : List (Span × Span)
  previous : Option Span

/-- A span that reaches into the one before it is reported and then left out. -/
def OverlapScan.step (scan : OverlapScan) (s : Span) : OverlapScan :=
  match scan.previous with
  | some p =>
    if p.start < s.stop then { scan with found := scan.found ++ [(p, s)] }
    else { scan with previous := some s }
  | none => { scan with previous := some s }

/-- Distinct spans in order of application. -/
def Span.sortDistinct (spans : List Span) : List Span :=
  (spans.mergeSort Span.appliedFirst).eraseReps

/-- The pairs of overlapping spans: each span that would be passed over, with the one in its way. -/
def overlaps (spans : List Span) : List (Span × Span) :=
  ((Span.sortDistinct spans).foldl OverlapScan.step ⟨[], none⟩).found

end Bindery
