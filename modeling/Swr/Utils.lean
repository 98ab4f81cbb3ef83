import Mathlib.Algebra.Group.Int.Defs
import Mathlib.Data.String.Basic
import Mathlib.Tactic.Common

/-! # Composite keys and stamps -/

namespace Swr

/-- `format!("{}:{}", namespace, key)`. The doc comment beside the source announces
    two colons; one is written. -/
def buildCacheKey (ns key : String) : String := ns ++ ":" ++ key

/-- Within one namespace different keys get different composite keys. -/
theorem buildCacheKey_inj {ns key key' : String} :
    buildCacheKey ns key = buildCacheKey ns key' ↔ key = key' := by
  refine ⟨fun same => ?_, fun same => by rw [same]⟩
  have chars := congrArg String.toList same
  simp only [buildCacheKey, String.toList_append] at chars
  exact String.toList_inj.mp (List.append_cancel_left chars)

/-! ## Stamps

All times are `i64` milliseconds. The only arithmetic on them that the code does
without looking at the result is the addition of a duration to a clock reading. -/

def minI64 : Int := -2 ^ 63

def maxI64 : Int := 2 ^ 63 - 1

/-- `now + ms` on `i64`, wrapping as release builds do. -/
def addMs (now ms : Int) : Int := (now + ms).bmod (2 ^ 64)

theorem addMs_of_fits {now ms : Int} (low : minI64 ≤ now + ms) (high : now + ms ≤ maxI64) :
    addMs now ms = now + ms := by
  simp only [minI64, maxI64] at low high
  simp only [addMs, Int.bmod_def]
  omega

end Swr
