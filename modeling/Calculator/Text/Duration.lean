/-!
# Durations

How a time is written: in the largest unit of which there is one, with two decimal places.
-/

namespace Calculator

namespace Duration

/-- A number of hundredths as a number with two decimal places. -/
def hundredths (n : Nat) : String :=
  (n / 100).repr ++ "." ++ (n % 100 / 10).repr ++ (n % 10).repr

/-- The time in nanoseconds, seconds at most, the last place rounded to nearest. -/
def render (nanoseconds : Nat) : String :=
  let inUnit (size : Nat) (unit : String) : String :=
    hundredths ((200 * nanoseconds + size) / (2 * size)) ++ unit
  if 1000000000 ≤ nanoseconds then inUnit 1000000000 "s"
  else if 1000000 ≤ nanoseconds then inUnit 1000000 "ms"
  else if 1000 ≤ nanoseconds then inUnit 1000 "µs"
  else inUnit 1 "ns"

end Duration

end Calculator
