import Mathlib.Data.List.Forall2

/-!
# Lib/Collect — what a map that may fail collects
-/

open List

namespace Collect

variable {α β : Type} {f : α → Option β}

/-- **`mapM` collects what the function gives for each element**, if it gives something for all. -/
theorem mapM_eq_some : ∀ {l : List α} {m : List β},
    l.mapM f = some m ↔ List.Forall₂ (fun a b => f a = some b) l m
  | [], m => by
    rw [mapM_nil, forall₂_nil_left_iff]
    exact ⟨fun h => (Option.some.inj h).symm, fun h => congrArg some h.symm⟩
  | a :: l, m => by
    rw [mapM_cons]
    constructor
    · intro h
      obtain ⟨b, hb, h⟩ := Option.bind_eq_some_iff.mp h
      obtain ⟨rest, hrest, h⟩ := Option.bind_eq_some_iff.mp h
      obtain rfl := Option.some.inj h
      exact .cons hb (mapM_eq_some.mp hrest)
    · rintro (_ | ⟨hb, hrest⟩)
      rw [hb, mapM_eq_some.mpr hrest]
      rfl

/-- The same for a function that gives an error. -/
theorem mapM_eq_ok {ε : Type} {f : α → Except ε β} : ∀ {l : List α} {m : List β},
    l.mapM f = .ok m ↔ List.Forall₂ (fun a b => f a = .ok b) l m
  | [], m => by
    rw [mapM_nil, forall₂_nil_left_iff]
    exact ⟨fun h => (Except.ok.inj h).symm, fun h => congrArg Except.ok h.symm⟩
  | a :: l, m => by
    rw [mapM_cons]
    constructor
    · intro h
      rcases hfirst : f a with _ | b
      · rw [hfirst] at h
        cases h
      rw [hfirst] at h
      rcases hrest : l.mapM f with _ | bs
      · rw [hrest] at h
        cases h
      rw [hrest] at h
      obtain rfl := Except.ok.inj h
      exact .cons hfirst (mapM_eq_ok.mp hrest)
    · intro h
      cases h with
      | cons hfirst hrest =>
        rw [hfirst, mapM_eq_ok.mpr hrest]
        rfl

theorem mapM_ok {ε : Type} {f : α → Except ε β} : ∀ {l : List α},
    (∀ a ∈ l, ∃ b, f a = .ok b) → ∃ m, l.mapM f = .ok m
  | [], _ => ⟨[], rfl⟩
  | a :: l, h => by
    obtain ⟨⟨b, hb⟩, hrest⟩ := forall_mem_cons.mp h
    obtain ⟨m, hm⟩ := mapM_ok hrest
    exact ⟨b :: m, mapM_eq_ok.mpr (.cons hb (mapM_eq_ok.mp hm))⟩

/-- Everything collected is of an element. -/
theorem exists_of_mem_right {l : List α} {m : List β} {P : α → β → Prop} (h : List.Forall₂ P l m) :
    ∀ b ∈ m, ∃ a ∈ l, P a b := by
  induction h with
  | nil => exact nofun
  | @cons a b l m hhere _ ih =>
    intro c hc
    rcases mem_cons.mp hc with rfl | hc
    · exact ⟨a, mem_cons_self, hhere⟩
    · obtain ⟨a', ha', h⟩ := ih c hc
      exact ⟨a', mem_cons_of_mem _ ha', h⟩

/-- Something is collected of every element. -/
theorem exists_of_mem_left {l : List α} {m : List β} {P : α → β → Prop} (h : List.Forall₂ P l m) :
    ∀ a ∈ l, ∃ b ∈ m, P a b :=
  exists_of_mem_right (P := fun b a => P a b) h.flip

end Collect
