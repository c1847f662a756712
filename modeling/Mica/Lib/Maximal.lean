import Mathlib.Data.Finset.Card
import Mathlib.Data.Fintype.Defs
import Mathlib.Logic.Relation

/-!
# Lib/Maximal — going up as far as one can

In a finite collection every way up ends, at an element that nothing is above, or goes round in a
circle.
-/

open Relation Finset

namespace Maximal

variable {α : Type} {above : α → α → Prop} {s : List α}

end Maximal
