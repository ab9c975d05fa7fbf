/-
**The numeral two.**

Main definitions:

* `Numerals.atLeastTwo_two` — the proof that the numeral `2` of a semiring carries.
-/

import Mathlib.Data.Nat.Cast.Defs

set_option relaxedAutoImplicit false
set_option autoImplicit false

namespace Numerals

/-- Under a name, so that a definition with the numeral needs no auxiliary lemma for it. -/
instance atLeastTwo_two : Nat.AtLeastTwo 2 := ⟨Nat.le_refl 2⟩

end Numerals
