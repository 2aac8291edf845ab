namespace NameResolution.Text

/-- Whether a code point lies in one of some ascending, disjoint ranges. -/
def inRanges : List (Nat × Nat) → Nat → Bool
  | [], _ => false
  | (low, high) :: ranges, n => if n < low then false else n ≤ high || inRanges ranges n

end NameResolution.Text
