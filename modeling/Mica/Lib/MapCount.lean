import Mica.Lib.SortedList

/-!
# Lib/MapCount — how many values of a sorted map pass a test

A write changes the count by what the old and the new value of its key contribute, and by nothing else.
Updates of distinct keys, one after the other, change each value once.
-/

open SortedList List

namespace SortedList.SortedMap

variable {κ β : Type} [LinearOrder κ] {m : SortedMap κ β} {k : κ} {v : β}

/-- How many values pass a test. -/
def count (p : β → Bool) (m : SortedMap κ β) : ℕ := m.list.countP fun e => p e.2

/-- What an optional value contributes to a count. -/
def contribution (p : β → Bool) (v : Option β) : ℕ := if v.any p then 1 else 0

theorem nodup_list (m : SortedMap κ β) : m.list.Nodup :=
  m.sorted.imp fun h heq => h.ne (congrArg Prod.fst heq)

theorem mem_list_iff {e : κ × β} : e ∈ m.list ↔ m.get? e.1 = some e.2 := get?_eq_some.symm

/-- **The entry of a key stands apart from the others.** -/
theorem perm_erase (h : m.get? k = some v) : m.list.Perm ((k, v) :: (m.erase k).list) := by
  have hnotMem : (k, v) ∉ (m.erase k).list := by
    rw [mem_list_iff, get?_erase, if_pos rfl]
    exact nofun
  refine (perm_ext_iff_of_nodup m.nodup_list
    (nodup_cons.mpr ⟨hnotMem, (m.erase k).nodup_list⟩)).mpr fun e => ?_
  rw [mem_cons, mem_list_iff, mem_list_iff, get?_erase, Prod.ext_iff]
  by_cases hk : e.1 = k
  · rw [if_pos hk, hk, h]
    simp [eq_comm]
  · rw [if_neg hk]
    simp [hk]

theorem erase_of_get?_eq_none (h : m.get? k = none) : m.erase k = m := by
  refine ext_get? fun k' => ?_
  rw [get?_erase]
  split
  · next hk => rw [hk, h]
  · rfl

theorem erase_insert : (m.insert k v).erase k = m.erase k := by
  refine ext_get? fun k' => ?_
  rw [get?_erase, get?_erase, get?_insert]
  split
  · rfl
  · rfl

theorem count_erase (p : β → Bool) :
    (m.erase k).count p + contribution p (m.get? k) = m.count p := by
  rcases h : m.get? k with _ | v
  · rw [erase_of_get?_eq_none h]; rfl
  rw [count, count, (perm_erase h).countP_eq, countP_cons]; rfl

theorem count_insert (p : β → Bool) :
    (m.insert k v).count p + contribution p (m.get? k) = m.count p + contribution p (some v) := by
  have hinsert : (m.erase k).count p + contribution p (some v) = (m.insert k v).count p := by
    rw [← erase_insert (v := v), ← get?_insert_self (m := m) (k := k) (v := v)]
    exact count_erase p
  have herase := count_erase (m := m) (k := k) p
  omega

/-- **Updates of distinct keys**: each finds the value that its key had at the start. -/
theorem foldlM_distinct {γ : Type} (key : γ → κ) (change : γ → Option β → Option β)
    (ready : γ → Option β → Prop) {act : SortedMap κ β → γ → Option (SortedMap κ β)}
    (hact : ∀ m e, ready e (m.get? (key e)) → ∃ m', act m e = some m' ∧
      m'.get? (key e) = change e (m.get? (key e)) ∧ ∀ k, k ≠ key e → m'.get? k = m.get? k) :
    ∀ {l : List γ} {m : SortedMap κ β}, (l.map key).Nodup → (∀ e ∈ l, ready e (m.get? (key e))) →
      ∃ m', l.foldlM act m = some m' ∧ (∀ e ∈ l, m'.get? (key e) = change e (m.get? (key e))) ∧
        ∀ k, k ∉ l.map key → m'.get? k = m.get? k
  | [], m, _, _ => ⟨m, rfl, nofun, fun _ _ => rfl⟩
  | e :: l, m, hnodup, hready => by
    obtain ⟨hnotMem, hnodup⟩ := nodup_cons.mp hnodup
    obtain ⟨hhere, hready⟩ := forall_mem_cons.mp hready
    obtain ⟨m₁, hm₁, hchange, hsame⟩ := hact m e hhere
    have hother : ∀ e' ∈ l, m₁.get? (key e') = m.get? (key e') := fun e' he' =>
      hsame _ fun heq => hnotMem (heq ▸ mem_map_of_mem he')
    obtain ⟨m₂, hm₂, hchanges, hsames⟩ := foldlM_distinct key change ready hact
      hnodup (fun e' he' => (hother e' he').symm ▸ hready e' he')
    refine ⟨m₂, ?_, forall_mem_cons.mpr ⟨?_, fun e' he' => ?_⟩, fun k hk => ?_⟩
    · rwa [foldlM_cons, hm₁]
    · rw [hsames _ hnotMem, hchange]
    · rw [hchanges e' he', hother e' he']
    · obtain ⟨hne, hk⟩ := not_or.mp (fun h => hk (mem_cons.mpr h))
      rw [hsames k hk, hsame k hne]

end SortedList.SortedMap
