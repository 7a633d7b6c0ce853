/-!
# Lengths of time

A span is a number of nanoseconds, and so is an instant: the span since the clock started.
-/

namespace MiningPool

/-- A length of time in nanoseconds. -/
abbrev Span := Nat

/-- An instant, as the span since the clock started. -/
abbrev Instant := Nat

namespace Span

def ofSeconds (n : Nat) : Span := n * 1000000000

def ofMilliseconds (n : Nat) : Span := n * 1000000

/-- The whole seconds of a span. -/
def seconds (s : Span) : Nat := s / 1000000000

/-- The nanoseconds beyond the whole seconds. -/
def subseconds (s : Span) : Nat := s % 1000000000

end Span
end MiningPool
