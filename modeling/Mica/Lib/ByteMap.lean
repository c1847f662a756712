import Mica.Lib.OrderCode
import Mathlib.Data.List.Nodup

/-!
# Lib/ByteMap — ordered maps keyed by byte strings

What a radix tree and a key–value store have in common: entries kept in key order, one for each key,
with insertion, deletion, lookup, and the values under a prefix in key order.  `ByteMap M` says that
the container `M` is such a map; `Entries`, the sorted list of entries itself, is the plainest one.
-/

open OrderCode List

/-- **An ordered map keyed by byte strings.**  `entries` lists it in key order and every other
operation is determined by what it does to them. -/
class ByteMap (M : Type → Type) where
  entries {β : Type} : M β → List (Bytes × β)
  empty {β : Type} : M β
  get {β : Type} : Bytes → M β → Option β
  insert {β : Type} : Bytes → β → M β → M β
  delete {β : Type} : Bytes → M β → M β
  prefixValues {β : Type} : Bytes → M β → List β
  sorted {β : Type} (m : M β) : (entries m).Pairwise fun e f => compare e.1 f.1 = .lt
  entries_empty {β : Type} : entries (empty : M β) = []
  get_eq_some {β : Type} {k : Bytes} {v : β} {m : M β} : get k m = some v ↔ (k, v) ∈ entries m
  mem_insert {β : Type} {k : Bytes} {v : β} {m : M β} {e : Bytes × β} :
    e ∈ entries (insert k v m) ↔ e = (k, v) ∨ e.1 ≠ k ∧ e ∈ entries m
  mem_delete {β : Type} {k : Bytes} {m : M β} {e : Bytes × β} :
    e ∈ entries (delete k m) ↔ e.1 ≠ k ∧ e ∈ entries m
  prefixValues_eq {β : Type} (p : Bytes) (m : M β) :
    prefixValues p m = ((entries m).filter fun e => p.isPrefixOf e.1).map Prod.snd

namespace ByteMap

variable {M : Type → Type} [ByteMap M] {β : Type} {m : M β} {k : Bytes}

theorem get_insert_self (v : β) : get k (insert k v m) = some v :=
  get_eq_some.mpr (mem_insert.mpr (.inl rfl))

theorem get_insert_of_ne {k' : Bytes} (h : k' ≠ k) (v : β) : get k' (insert k v m) = get k' m := by
  refine Option.ext fun w => ?_
  rw [get_eq_some, get_eq_some, mem_insert]
  constructor
  · rintro (heq | ⟨-, hmem⟩)
    · exact absurd (Prod.mk.inj heq).1 h
    · exact hmem
  · exact fun hmem => .inr ⟨h, hmem⟩

theorem get_delete_self : get k (delete k m) = none := by
  refine Option.eq_none_iff_forall_ne_some.mpr fun w hw => ?_
  exact (mem_delete.mp (get_eq_some.mp hw)).1 rfl

theorem get_delete_of_ne {k' : Bytes} (h : k' ≠ k) : get k' (delete k m) = get k' m := by
  refine Option.ext fun w => ?_
  rw [get_eq_some, get_eq_some, mem_delete]
  exact ⟨fun hw => hw.2, fun hw => ⟨h, hw⟩⟩

/-- The values under a prefix. -/
theorem mem_prefixValues {p : Bytes} {v : β} :
    v ∈ prefixValues p m ↔ ∃ k, p <+: k ∧ (k, v) ∈ entries m := by
  rw [prefixValues_eq, mem_map]
  constructor
  · rintro ⟨⟨k, w⟩, hmem, rfl⟩
    rw [mem_filter, isPrefixOf_iff_prefix] at hmem
    exact ⟨k, hmem.2, hmem.1⟩
  · rintro ⟨k, hp, hmem⟩
    exact ⟨(k, v), mem_filter.mpr ⟨hmem, isPrefixOf_iff_prefix.mpr hp⟩, rfl⟩

/-- The values in key order. -/
def values (m : M β) : List β := (entries m).map Prod.snd

/-- The keys in order. -/
def keys (m : M β) : List Bytes := (entries m).map Prod.fst

theorem nodup_keys (m : M β) : (keys m).Nodup := by
  refine pairwise_map.mpr ((sorted m).imp fun h heq => ?_)
  rw [heq] at h
  cases h.symm.trans Std.ReflCmp.compare_self

theorem nodup_entries (m : M β) : (entries m).Nodup := List.Nodup.of_map Prod.fst (nodup_keys m)

theorem mem_keys : k ∈ keys m ↔ ∃ v, (k, v) ∈ entries m := by
  rw [keys, mem_map]
  exact ⟨fun ⟨e, he, hk⟩ => ⟨e.2, hk ▸ he⟩, fun ⟨v, hv⟩ => ⟨(k, v), hv, rfl⟩⟩

theorem get_eq_none : get k m = none ↔ k ∉ keys m := by
  rw [mem_keys, not_exists, Option.eq_none_iff_forall_ne_some]
  exact forall_congr' fun v => not_congr get_eq_some

theorem mem_keys_insert {v : β} {x : Bytes} : x ∈ keys (insert k v m) ↔ x = k ∨ x ∈ keys m := by
  simp only [mem_keys, mem_insert, Prod.mk.injEq]
  constructor
  · rintro ⟨w, ⟨rfl, rfl⟩ | ⟨-, hw⟩⟩
    · exact .inl rfl
    · exact .inr ⟨w, hw⟩
  by_cases hx : x = k
  · exact fun _ => ⟨v, .inl ⟨hx, rfl⟩⟩
  · rintro (heq | ⟨w, hw⟩)
    · exact absurd heq hx
    · exact ⟨w, .inr ⟨hx, hw⟩⟩

theorem mem_keys_delete {x : Bytes} : x ∈ keys (delete k m) ↔ x ≠ k ∧ x ∈ keys m := by
  simp only [mem_keys, mem_delete, exists_and_left]

/-- **The number of entries after an insertion.** -/
theorem length_insert (v : β) : (entries (insert k v m)).length =
    if (get k m).isSome then (entries m).length else (entries m).length + 1 := by
  have hlen : ∀ m : M β, (entries m).length = (keys m).length := fun m =>
    (length_map Prod.fst).symm
  have hperm {l : List Bytes} (hl : l.Nodup) (h : ∀ x, x = k ∨ x ∈ keys m ↔ x ∈ l) :
      (keys (insert k v m)).length = l.length :=
    ((perm_ext_iff_of_nodup (nodup_keys _) hl).mpr fun x =>
      mem_keys_insert.trans (h x)).length_eq
  rw [hlen, hlen]
  split
  · next hsome =>
    have hk : k ∈ keys m := by_contra fun h => by simp [get_eq_none.mpr h] at hsome
    exact hperm (nodup_keys m) fun x => or_iff_right_of_imp fun h => h ▸ hk
  · next hnone =>
    have hk : k ∉ keys m := get_eq_none.mp (Option.not_isSome_iff_eq_none.mp hnone)
    rw [hperm (nodup_cons.mpr ⟨hk, nodup_keys m⟩) fun x => mem_cons.symm,
      length_cons]

/-- **The number of entries after a deletion.** -/
theorem length_delete : (entries (delete k m)).length =
    if (get k m).isSome then (entries m).length - 1 else (entries m).length := by
  have hlen : ∀ m : M β, (entries m).length = (keys m).length := fun m =>
    (length_map Prod.fst).symm
  have hperm : (keys (delete k m)).Perm ((keys m).erase k) :=
    (perm_ext_iff_of_nodup (nodup_keys _) ((nodup_keys m).erase k)).mpr fun x =>
      mem_keys_delete.trans (nodup_keys m).mem_erase_iff.symm
  rw [hlen, hlen, hperm.length_eq]
  split
  · next hsome =>
    have hk : k ∈ keys m := by_contra fun h => by simp [get_eq_none.mpr h] at hsome
    exact length_erase_of_mem hk
  · next hnone =>
    have hk : k ∉ keys m := get_eq_none.mp (Option.not_isSome_iff_eq_none.mp hnone)
    rw [erase_of_not_mem hk]

/-- The values that two maps have under the same key, in the order of the keys. -/
def intersectValues {γ : Type} (m : M β) (m' : M γ) : List (β × γ) :=
  (entries m).filterMap fun e => (get e.1 m').map fun w => (e.2, w)

theorem mem_intersectValues {γ : Type} {m' : M γ} {v : β} {w : γ} :
    (v, w) ∈ intersectValues m m' ↔ ∃ k, get k m = some v ∧ get k m' = some w := by
  simp only [intersectValues, mem_filterMap, Option.map_eq_some_iff, Prod.mk.injEq]
  constructor
  · rintro ⟨⟨k, x⟩, hmem, y, hy, rfl, rfl⟩
    exact ⟨k, get_eq_some.mpr hmem, hy⟩
  · rintro ⟨k, hv, hw⟩
    exact ⟨(k, v), get_eq_some.mp hv, w, hw, rfl, rfl⟩

/-- Insert a list of entries, in order. -/
def insertAll (es : List (Bytes × β)) (m : M β) : M β := es.foldl (fun m e => insert e.1 e.2 m) m

theorem of_mem_insertAll {es : List (Bytes × β)} {m : M β} {e : Bytes × β}
    (h : e ∈ entries (insertAll es m)) : e ∈ es ∨ e ∈ entries m := by
  induction es generalizing m with
  | nil => exact .inr h
  | cons f es ih =>
    rcases ih h with he | he
    · exact .inl (mem_cons_of_mem _ he)
    · rcases mem_insert.mp he with rfl | he
      · exact .inl mem_cons_self
      · exact .inr he.2

/-- Inserting entries of pairwise different keys. -/
theorem mem_insertAll {es : List (Bytes × β)} (hes : (es.map Prod.fst).Nodup) {m : M β}
    {e : Bytes × β} :
    e ∈ entries (insertAll es m) ↔ e ∈ es ∨ e.1 ∉ es.map Prod.fst ∧ e ∈ entries m := by
  induction es generalizing m with
  | nil => simp [insertAll]
  | cons f es ih =>
    obtain ⟨hf, hes⟩ := nodup_cons.mp (map_cons ▸ hes)
    have hstep : insertAll (f :: es) m = insertAll es (insert f.1 f.2 m) := rfl
    rw [hstep, ih hes, mem_insert, mem_cons, map_cons, mem_cons, not_or]
    constructor
    · rintro (he | ⟨hnot, rfl | he⟩)
      · exact .inl (.inr he)
      · exact .inl (.inl rfl)
      · exact .inr ⟨⟨he.1, hnot⟩, he.2⟩
    · rintro ((rfl | he) | ⟨⟨hne, hnot⟩, he⟩)
      · exact .inr ⟨hf, .inl rfl⟩
      · exact .inl he
      · exact .inr ⟨hnot, .inr ⟨hne, he⟩⟩

end ByteMap

/-! ## Sorted entries -/

/-- The entries of an ordered map, as a list. -/
structure Entries (β : Type) where
  list : List (Bytes × β)
  sorted : list.Pairwise fun e f => compare e.1 f.1 = .lt

namespace Entries

variable {β : Type}

/-- Put an entry in its place, over one of the same key. -/
def insertList (k : Bytes) (v : β) : List (Bytes × β) → List (Bytes × β)
  | [] => [(k, v)]
  | e :: es =>
    match compare k e.1 with
    | .lt => (k, v) :: e :: es
    | .eq => (k, v) :: es
    | .gt => e :: insertList k v es

theorem ne_of_compare_lt {a b : Bytes} (h : compare a b = .lt) : a ≠ b := by
  rintro rfl
  cases h.symm.trans Std.ReflCmp.compare_self

theorem mem_insertList {k : Bytes} {v : β} {e : Bytes × β} : ∀ {es : List (Bytes × β)},
    (es.Pairwise fun e f => compare e.1 f.1 = .lt) →
      (e ∈ insertList k v es ↔ e = (k, v) ∨ e.1 ≠ k ∧ e ∈ es)
  | [], _ => by
    rw [insertList, mem_singleton]
    exact ⟨.inl, fun h => h.resolve_right fun h => absurd h.2 not_mem_nil⟩
  | f :: es, h => by
    obtain ⟨hf, hes⟩ := pairwise_cons.mp h
    rw [insertList]
    split
    · next hlt =>
      have hne : ∀ x ∈ f :: es, x.1 ≠ k := by
        refine forall_mem_cons.mpr ⟨(ne_of_compare_lt hlt).symm, fun x hx => ?_⟩
        exact (ne_of_compare_lt (Std.TransCmp.lt_trans hlt (hf x hx))).symm
      rw [mem_cons]
      exact ⟨Or.imp_right fun hx => ⟨hne e hx, hx⟩, Or.imp_right And.right⟩
    · next heq =>
      have hk : k = f.1 := Std.LawfulEqOrd.eq_of_compare heq
      rw [mem_cons, mem_cons]
      constructor
      · rintro (rfl | hx)
        · exact .inl rfl
        · exact .inr ⟨hk ▸ (ne_of_compare_lt (hf e hx)).symm, .inr hx⟩
      · rintro (rfl | ⟨hne, rfl | hx⟩)
        · exact .inl rfl
        · exact absurd hk.symm hne
        · exact .inr hx
    · next hgt =>
      have hne : f.1 ≠ k := by
        rintro rfl
        cases hgt.symm.trans Std.ReflCmp.compare_self
      rw [mem_cons, mem_cons, mem_insertList hes]
      constructor
      · rintro (rfl | rfl | hx)
        · exact .inr ⟨hne, .inl rfl⟩
        · exact .inl rfl
        · exact .inr ⟨hx.1, .inr hx.2⟩
      · rintro (rfl | ⟨hne', rfl | hx⟩)
        · exact .inr (.inl rfl)
        · exact .inl rfl
        · exact .inr (.inr ⟨hne', hx⟩)

theorem pairwise_insertList {k : Bytes} {v : β} : ∀ {es : List (Bytes × β)},
    (es.Pairwise fun e f => compare e.1 f.1 = .lt) →
      (insertList k v es).Pairwise fun e f => compare e.1 f.1 = .lt
  | [], _ => pairwise_singleton _ _
  | f :: es, h => by
    obtain ⟨hf, hes⟩ := pairwise_cons.mp h
    rw [insertList]
    split
    · next hlt =>
      refine pairwise_cons.mpr ⟨forall_mem_cons.mpr ⟨hlt, fun x hx => ?_⟩, h⟩
      exact Std.TransCmp.lt_trans hlt (hf x hx)
    · next heq =>
      have hk : k = f.1 := Std.LawfulEqOrd.eq_of_compare heq
      exact pairwise_cons.mpr ⟨fun x hx => by rw [hk]; exact hf x hx, hes⟩
    · next hgt =>
      have hlt : compare f.1 k = .lt := Std.OrientedCmp.lt_of_gt hgt
      refine pairwise_cons.mpr ⟨fun x hx => ?_, pairwise_insertList hes⟩
      rcases (mem_insertList hes).mp hx with rfl | hx
      · exact hlt
      · exact hf x hx.2

instance : ByteMap Entries where
  entries m := m.list
  empty := ⟨[], List.Pairwise.nil⟩
  get k m := (m.list.find? fun e => e.1 = k).map Prod.snd
  insert k v m := ⟨insertList k v m.list, pairwise_insertList m.sorted⟩
  delete k m := ⟨m.list.filter fun e => e.1 ≠ k, m.sorted.filter _⟩
  prefixValues p m := (m.list.filter fun e => p.isPrefixOf e.1).map Prod.snd
  sorted m := m.sorted
  entries_empty := rfl
  get_eq_some {_ k v m} := by
    rw [Option.map_eq_some_iff]
    constructor
    · rintro ⟨e, hfind, rfl⟩
      have hk : e.1 = k := by simpa using find?_some hfind
      exact hk ▸ mem_of_find?_eq_some hfind
    intro hmem
    -- distinct entries have distinct keys, so the first entry of this key is the one meant
    have hsome : (m.list.find? fun e => decide (e.1 = k)).isSome :=
      find?_isSome.mpr ⟨_, hmem, decide_eq_true rfl⟩
    obtain ⟨e, he⟩ := Option.isSome_iff_exists.mp hsome
    have hk : e.1 = k := by simpa using find?_some he
    have hkeys : (m.list.map Prod.fst).Nodup :=
      pairwise_map.mpr (m.sorted.imp ne_of_compare_lt)
    have heq := inj_on_of_nodup_map hkeys (mem_of_find?_eq_some he) hmem hk
    exact ⟨e, he, congrArg Prod.snd heq⟩
  mem_insert {_ _ _ m _} := mem_insertList m.sorted
  mem_delete := by
    intros
    rw [mem_filter, decide_eq_true_eq, and_comm]
  prefixValues_eq _ _ := rfl

end Entries
