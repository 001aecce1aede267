/-!
# Spans

A span is a range of offsets into the text of a module: it holds its start and not its end.  A
span whose end is not after its start holds nothing.
-/

namespace PklAnalysis

/-- The offsets from `start` up to but not including `stop`. -/
structure Span where
  start : Nat
  stop : Nat
  deriving DecidableEq, Repr, Inhabited

namespace Span

def contains (s : Span) (offset : Nat) : Bool := s.start ≤ offset && offset < s.stop

/-- The number of offsets in a span. -/
def size (s : Span) : Nat := s.stop - s.start

def isEmpty (s : Span) : Bool := s.stop ≤ s.start

/-- The least span that covers two spans. -/
def cover (s t : Span) : Span := ⟨min s.start t.start, max s.stop t.stop⟩

/-- The bounds with two dots between. -/
def text (s : Span) : String := "Span(" ++ toString s.start ++ ".." ++ toString s.stop ++ ")"

theorem isEmpty_iff (s : Span) : s.isEmpty = true ↔ ∀ n, s.contains n = false := by
  simp only [isEmpty, contains, decide_eq_true_eq, Bool.and_eq_false_iff, decide_eq_false_iff_not]
  constructor
  · intro h n; omega
  · intro h; have := h s.start; omega

end Span

end PklAnalysis
