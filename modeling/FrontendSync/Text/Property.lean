/-!
# Character properties

A property of characters is a table of closed ranges of code points in ascending order.
-/

namespace FrontendSync.Text

/-- Whether `n` lies in one of the ascending ranges. -/
def within : List (Nat × Nat) → Nat → Bool
  | [], _ => false
  | (lo, hi) :: ranges, n => if n < lo then false else n ≤ hi || within ranges n

end FrontendSync.Text
