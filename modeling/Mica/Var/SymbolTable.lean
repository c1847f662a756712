import Mica.Var.Value
import Mathlib.Data.List.Nodup

/-!
# Var/SymbolTable — interned names

A process interns names in the order it meets them; a symbol is the position of its name.  Two
processes that meet the same names in different orders give them different symbols, and so different
places in the order of values.
-/

open List

namespace Mica

/-- `SymbolTableInner`: the names by id, each once.  `by_name` is the inverse. -/
structure SymbolTable where
  byId : List String
  nodup : byId.Nodup

namespace SymbolTable

def empty : SymbolTable := ⟨[], nodup_nil⟩

/-- `SymbolTable::name`. -/
def name (T : SymbolTable) (s : Symbol) : Option String := T.byId[s.id.toNat]?

/-- `SymbolTable::intern`; a new name takes the next id, `by_id.len() as u32`. -/
def intern (T : SymbolTable) (name : String) : Symbol × SymbolTable :=
  if h : name ∈ T.byId then (⟨UInt32.ofNat (T.byId.idxOf name)⟩, T)
  else (⟨UInt32.ofNat T.byId.length⟩, ⟨T.byId ++ [name], by
    rw [← concat_eq_append]
    exact T.nodup.concat h⟩)

variable {T : SymbolTable} {n : String}

/-- **Interning the name of a symbol gives it back** and leaves the table alone. -/
theorem intern_name {s : Symbol} (h : T.name s = some n) :
    T.intern n = (s, T) := by
  obtain ⟨hlt, hget⟩ := List.getElem?_eq_some_iff.mp h
  have hmem : n ∈ T.byId := mem_of_getElem? h
  have hidx : T.byId.idxOf n = s.id.toNat := by
    rw [← hget]
    exact T.nodup.idxOf_getElem _ hlt
  rw [intern, dif_pos hmem, hidx, UInt32.ofNat_toNat]

theorem name_injective {s t : Symbol} (hs : T.name s = some n) (ht : T.name t = some n) : s = t :=
  congrArg Prod.fst ((intern_name hs).symm.trans (intern_name ht))

/-! ## Growing tables -/

/-- `U` holds the names of `T` under the same symbols, and perhaps more. -/
def Extends (T U : SymbolTable) : Prop := T.byId <+: U.byId

theorem Extends.refl (T : SymbolTable) : Extends T T := prefix_refl _

theorem Extends.trans {U V : SymbolTable} (h : Extends T U) (h' : Extends U V) : Extends T V :=
  List.IsPrefix.trans h h'

theorem extends_intern (T : SymbolTable) (n : String) : Extends T (T.intern n).2 := by
  unfold intern
  split
  · exact Extends.refl T
  · exact prefix_append _ _

theorem Extends.name_eq {U : SymbolTable} (h : Extends T U) {s : Symbol}
    (hs : T.name s = some n) : U.name s = some n := by
  obtain ⟨l, hl⟩ := h
  obtain ⟨hlt, -⟩ := List.getElem?_eq_some_iff.mp hs
  rwa [name, ← hl, getElem?_append_left hlt]

theorem mem_intern (T : SymbolTable) (n : String) : n ∈ (T.intern n).2.byId := by
  unfold intern
  split
  · next h => exact h
  · exact mem_append_right _ mem_cons_self

theorem mem_of_mem_intern {m : String} (h : m ∈ (T.intern n).2.byId) :
    m = n ∨ m ∈ T.byId := by
  unfold intern at h
  split at h
  · exact Or.inr h
  · rcases mem_append.mp h with h | h
    · exact Or.inr h
    · exact Or.inl (mem_singleton.mp h)

/-- Names and symbols are `u32`s: as long as they last, a name in the table is the name of its
symbol. -/
theorem name_intern_of_mem {U : SymbolTable} (hU : U.byId.length ≤ 2 ^ 32)
    (h : n ∈ U.byId) : U.name (U.intern n).1 = some n := by
  have hlt := idxOf_lt_length_of_mem h
  rw [intern, dif_pos h, name, UInt32.toNat_ofNat_of_lt' (lt_of_lt_of_le hlt hU)]
  exact List.getElem?_eq_some_iff.mpr ⟨hlt, getElem_idxOf hlt⟩

/-- **An interned name keeps its symbol** while the table grows. -/
theorem intern_eq_of_extends {U : SymbolTable} (h : Extends (T.intern n).2 U)
    (hU : U.byId.length ≤ 2 ^ 32) : U.intern n = ((T.intern n).1, U) := by
  have hT : (T.intern n).2.byId.length ≤ 2 ^ 32 := h.length_le.trans hU
  have hname : (T.intern n).2.name (T.intern n).1 = some n := by
    by_cases hmem : n ∈ T.byId
    · have htable : (T.intern n).2 = T := by rw [intern, dif_pos hmem]
      rw [htable] at hT ⊢
      exact name_intern_of_mem hT hmem
    · rw [intern, dif_neg hmem] at hT ⊢
      rw [length_append, length_singleton] at hT
      rw [name, UInt32.toNat_ofNat_of_lt' (by omega : T.byId.length < 2 ^ 32)]
      exact getElem?_concat_length
  exact intern_name (h.name_eq hname)

end SymbolTable

end Mica
