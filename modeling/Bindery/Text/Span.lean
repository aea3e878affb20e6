/-!
# Spans of source text

A `Span` is a half-open range of byte offsets. Nothing forbids a reversed span or one that leaves
the text: such spans arrive from outside and every operation says what it does with them.

* `Span.Contains`, `Span.Overlaps`: the two relations between spans, both decidable.
* `Span.relativeTo?`: the same span counted from another origin.
* `Span.cover`: the least span around two.
-/

namespace Bindery

/-- The bytes from `start` up to, but not including, `stop`. -/
structure Span where
  start : Nat
  stop : Nat
  deriving DecidableEq, Repr, Inhabited

namespace Span

/-- The span of `length` bytes from `start` on. -/
def ofLength (start length : Nat) : Span := ⟨start, start + length⟩

/-- The number of bytes; a reversed span has none. -/
def length (s : Span) : Nat := s.stop - s.start

/-- A span without bytes, reversed spans included. -/
def IsEmpty (s : Span) : Prop := s.stop ≤ s.start

instance (s : Span) : Decidable s.IsEmpty := inferInstanceAs (Decidable (_ ≤ _))

/-- `t` lies entirely inside `s`. -/
def Contains (s t : Span) : Prop := s.start ≤ t.start ∧ t.stop ≤ s.stop

instance (s t : Span) : Decidable (s.Contains t) := inferInstanceAs (Decidable (_ ∧ _))

/-- Each span starts before the other stops. -/
def Overlaps (s t : Span) : Prop := s.start < t.stop ∧ t.start < s.stop

instance (s t : Span) : Decidable (s.Overlaps t) := inferInstanceAs (Decidable (_ ∧ _))

/-- Move the end back by `amount`, never past the start. -/
def trimEnd (s : Span) (amount : Nat) : Span := ⟨s.start, max (s.stop - amount) s.start⟩

/-- The span counted from `origin`, if both of its ends lie at or after it. -/
def relativeTo? (s : Span) (origin : Nat) : Option Span :=
  if origin ≤ s.start ∧ origin ≤ s.stop then some ⟨s.start - origin, s.stop - origin⟩ else none

/-- The least span that holds both. -/
def cover (s t : Span) : Span := ⟨min s.start t.start, max s.stop t.stop⟩

/-- Spans are compared by start, then by end. -/
def order (s t : Span) : Ordering := (compare s.start t.start).then (compare s.stop t.stop)

/-- The written form `start_end`, which also serves as a key. -/
def key (s : Span) : String := toString s.start ++ "_" ++ toString s.stop

@[simp] theorem ofLength_start (start length : Nat) : (ofLength start length).start = start := rfl

end Span

end Bindery
