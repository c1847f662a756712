import Mathlib.Data.Set.Basic

/-!
# Lib/Specificity — parameter lists by what they accept

A shape has required parameters, further fixed ones, and perhaps a rest parameter that takes what is
left; each has a restriction, and restrictions are compared by `implies`, with `top` for none.  One
shape is more specific than another when it asks for at least as much at every position and for more
somewhere.  If `implies` is transitive, so is that (`Shape.MoreSpecific.trans`); the proof needs it
around the circle too, since a position that only two of three shapes have is decided elsewhere.

Parameters that are found by role compare role by role (`AsksAtLeast`), and being more specific is the
strict part of that.
-/

/-- A list of parameters. -/
structure Shape (α : Type) where
  required : ℕ
  fixed : ℕ
  rest : Bool
  restriction : ℕ → α

namespace Shape

variable {α : Type}

/-- All the parameters. -/
def length (s : Shape α) : ℕ := s.fixed + s.rest.toNat

theorem length_of_rest {s : Shape α} (h : s.rest = true) : s.length = s.fixed + 1 := by
  rw [length, h]
  rfl

theorem length_of_not_rest {s : Shape α} (h : s.rest = false) : s.length = s.fixed := by
  rw [length, h]
  rfl

theorem fixed_le_length (s : Shape α) : s.fixed ≤ s.length := Nat.le_add_right _ _

theorem length_le (s : Shape α) : s.length ≤ s.fixed + 1 := by
  rw [length]
  have := Bool.toNat_le s.rest
  omega

theorem rest_of_lt {s : Shape α} {i : ℕ} (h : i < s.length) (hi : s.fixed ≤ i) :
    s.rest = true ∧ i = s.fixed := by
  cases hrest : s.rest with
  | true =>
    rw [length_of_rest hrest] at h
    exact ⟨rfl, by omega⟩
  | false =>
    rw [length_of_not_rest hrest] at h
    omega

/-- The position is compared: the left shape has a parameter there, and not its rest where the right
one still has a fixed parameter. -/
def Compared (l r : Shape α) (i : ℕ) : Prop := i < l.length ∧ ¬ (l.fixed ≤ i ∧ i < r.fixed)

/-- **The left shape asks for at least as much as the right one.** -/
structure AtLeast (implies : α → α → Prop) (top : α) (l r : Shape α) : Prop where
  required : r.required ≤ l.required
  fixed : r.rest = true ∨ l.rest = false ∧ l.fixed ≤ r.fixed
  restTail : r.rest = true → r.restriction r.fixed ≠ top → l.rest = true ∧ l.fixed = r.fixed
  compared : ∀ i < r.length, Compared l r i → implies (l.restriction i) (r.restriction i)
  uncompared : ∀ i < r.length, ¬ Compared l r i → l.rest = true → r.restriction i = top

/-- The left shape asks for more: more required parameters, an end, or a narrower restriction. -/
def Stricter (implies : α → α → Prop) (l r : Shape α) : Prop :=
  r.required < l.required ∨ l.rest = false ∧ (r.rest = true ∨ l.fixed < r.fixed) ∨
    ∃ i < r.length, Compared l r i ∧ ¬ implies (r.restriction i) (l.restriction i)

/-- The left shape asks for at least as much, and for more. -/
def MoreSpecific (implies : α → α → Prop) (top : α) (l r : Shape α) : Prop :=
  AtLeast implies top l r ∧ Stricter implies l r

/-- What `implies` has to do on the restrictions in use. -/
structure Ordered (implies : α → α → Prop) (top : α) (restrictions : Set α) : Prop where
  refl : ∀ x, implies x x
  implies_top : ∀ x, implies x top
  eq_top : ∀ x, implies top x → x = top
  trans : ∀ x ∈ restrictions, ∀ y ∈ restrictions, ∀ z ∈ restrictions,
    implies x y → implies y z → implies x z

variable {implies : α → α → Prop} {top : α} {restrictions : Set α} {a b c : Shape α}

theorem not_moreSpecific_self (h : Ordered implies top restrictions) (s : Shape α) :
    ¬ MoreSpecific implies top s s := by
  rintro ⟨-, hlt | ⟨hrest, hrest' | hlt⟩ | ⟨i, -, -, hnot⟩⟩
  · exact lt_irrefl _ hlt
  · exact Bool.false_ne_true (hrest.symm.trans hrest')
  · exact lt_irrefl _ hlt
  · exact hnot (h.refl _)

/-- All restrictions of the shape are in use. -/
def Uses (restrictions : Set α) (s : Shape α) : Prop := ∀ i, s.restriction i ∈ restrictions

theorem AtLeast.trans (h : Ordered implies top restrictions) (ha : Uses restrictions a)
    (hb : Uses restrictions b) (hc : Uses restrictions c) (hab : AtLeast implies top a b)
    (hbc : AtLeast implies top b c) : AtLeast implies top a c where
  required := hbc.required.trans hab.required
  fixed := by
    rcases hbc.fixed with hrest | ⟨hrest, hle⟩
    · exact .inl hrest
    · rcases hab.fixed with hrest' | ⟨hrest', hle'⟩
      · exact absurd (hrest.symm.trans hrest') Bool.false_ne_true
      · exact .inr ⟨hrest', hle'.trans hle⟩
  restTail hrest hne := by
    obtain ⟨hb', hfixed⟩ := hbc.restTail hrest hne
    have hi : b.fixed < c.length := by rw [length_of_rest hrest, hfixed]; omega
    have hcompared : Compared b c b.fixed :=
      ⟨by rw [length_of_rest hb']; omega, fun hbad => by omega⟩
    have himplies := hbc.compared b.fixed hi hcompared
    obtain ⟨ha', hfixed'⟩ := hab.restTail hb' fun htop => by
      rw [htop, hfixed] at himplies
      exact hne (h.eq_top _ himplies)
    exact ⟨ha', hfixed'.trans hfixed⟩
  compared i hi hac := by
    by_cases hbc' : Compared b c i
    · have himplies := hbc.compared i hi hbc'
      by_cases hab' : Compared a b i
      · exact h.trans _ (ha i) _ (hb i) _ (hc i) (hab.compared i hbc'.1 hab') himplies
      have hskip : a.fixed ≤ i := by
        by_contra hlt
        exact hab' ⟨hac.1, fun hbad => hlt hbad.1⟩
      rw [hab.uncompared i hbc'.1 hab' (rest_of_lt hac.1 hskip).1] at himplies
      rw [h.eq_top _ himplies]
      exact h.implies_top _
    · cases hrest : b.rest with
      | true =>
        rw [hbc.uncompared i hi hbc' hrest]
        exact h.implies_top _
      | false =>
        have hle : b.fixed ≤ i := by
          by_contra hlt
          exact hbc' ⟨by rw [length_of_not_rest hrest]; omega, fun hbad => hlt hbad.1⟩
        rcases hab.fixed with hrest' | ⟨hrest', hfixed⟩
        · exact absurd (hrest.symm.trans hrest') Bool.false_ne_true
        · have hlt := hac.1
          rw [length_of_not_rest hrest'] at hlt
          omega
  uncompared i hi hac hrest := by
    by_cases hbc' : Compared b c i
    · have himplies := hbc.compared i hi hbc'
      by_cases hab' : Compared a b i
      · refine absurd ⟨hab'.1, fun hbad => ?_⟩ hac
        have hfixed : b.fixed ≤ i := not_lt.mp fun hlt => hab'.2 ⟨hbad.1, hlt⟩
        exact hbc'.2 ⟨hfixed, hbad.2⟩
      · rw [hab.uncompared i hbc'.1 hab' hrest] at himplies
        exact h.eq_top _ himplies
    · rcases hab.fixed with hrest' | ⟨hrest', -⟩
      · exact hbc.uncompared i hi hbc' hrest'
      · exact absurd (hrest'.symm.trans hrest) Bool.false_ne_true

/-- A position that is narrower from the middle shape to the right one is so from the left one. -/
theorem stricter_of_narrower (h : Ordered implies top restrictions) (ha : Uses restrictions a)
    (hb : Uses restrictions b) (hc : Uses restrictions c) (hab : AtLeast implies top a b) {j : ℕ}
    (hj : j < c.length) (hja : j < a.fixed) (hbc' : Compared b c j)
    (hnot : ¬ implies (c.restriction j) (b.restriction j)) : Stricter implies a c := by
  have hlt := hja.trans_le a.fixed_le_length
  refine .inr (.inr ⟨j, hj, ⟨hlt, fun hbad => by omega⟩, fun hca => hnot ?_⟩)
  have habj := hab.compared j hbc'.1 ⟨hlt, fun hbad => by omega⟩
  exact h.trans _ (hc j) _ (ha j) _ (hb j) hca habj

theorem Stricter.trans (h : Ordered implies top restrictions) (ha : Uses restrictions a)
    (hb : Uses restrictions b) (hc : Uses restrictions c) (hab : AtLeast implies top a b)
    (hbc : AtLeast implies top b c) (hsab : Stricter implies a b) (hsbc : Stricter implies b c) :
    Stricter implies a c := by
  -- where the right shape is short, the middle one is stricter further to the left
  have hback : a.rest = true → (∀ j < c.length, Compared b c j → j < a.fixed) →
      Stricter implies a c := by
    intro hrest hleft
    have hrestb : b.rest = true := by
      rcases hab.fixed with hrest' | ⟨hrest', -⟩
      · exact hrest'
      · exact absurd (hrest'.symm.trans hrest) Bool.false_ne_true
    rcases hsbc with hlt | ⟨hrest', -⟩ | ⟨j, hj, hbc', hnot⟩
    · exact .inl (hlt.trans_le hab.required)
    · exact absurd (hrest'.symm.trans hrestb) Bool.false_ne_true
    · exact stricter_of_narrower h ha hb hc hab hj (hleft j hj hbc') hbc' hnot
  rcases hsab with hlt | ⟨hrest, hend⟩ | ⟨i, hib, hab', hnot⟩
  · exact .inl (hbc.required.trans_lt hlt)
  · refine .inr (.inl ⟨hrest, ?_⟩)
    rcases hbc.fixed with hc' | ⟨hb', hle⟩
    · exact .inl hc'
    · rcases hend with hb'' | hlt
      · exact absurd (hb'.symm.trans hb'') Bool.false_ne_true
      · exact .inr (hlt.trans_le hle)
  · by_cases hic : i < c.length
    · by_cases hac : Compared a c i
      · refine .inr (.inr ⟨i, hic, hac, fun hca => hnot ?_⟩)
        by_cases hbc' : Compared b c i
        · exact h.trans _ (hb i) _ (hc i) _ (ha i) (hbc.compared i hic hbc') hca
        have hskip : b.fixed ≤ i := by
          by_contra hlt
          exact hbc' ⟨hib, fun hbad => hlt hbad.1⟩
        rw [hbc.uncompared i hic hbc' (rest_of_lt hib hskip).1] at hca
        rw [h.eq_top _ hca]
        exact h.implies_top _
      · -- the left rest is where the right shape still has fixed parameters
        have hskip : a.fixed ≤ i ∧ i < c.fixed := by
          by_contra hbad
          exact hac ⟨hab'.1, hbad⟩
        obtain ⟨hrest, hia⟩ := rest_of_lt hab'.1 hskip.1
        have hle : b.fixed ≤ i := not_lt.mp fun hlt => hab'.2 ⟨hskip.1, hlt⟩
        refine hback hrest fun j _ hbc' => ?_
        have hjb := hbc'.1.trans_le b.length_le
        have := not_and.mp hbc'.2
        omega
    · -- the right shape ends before the position
      have hrestc : c.rest = true := by
        rcases hbc.fixed with hrest | ⟨hrest, hle⟩
        · exact hrest
        · rw [length_of_not_rest hrest] at hib
          have := c.fixed_le_length
          omega
      cases hrest : a.rest with
      | false => exact .inr (.inl ⟨hrest, .inl hrestc⟩)
      | true =>
        refine hback hrest fun j hj _ => ?_
        have hia := hab'.1
        rw [length_of_rest hrest] at hia
        omega

/-- **Specificity is transitive**, if `implies` is on the restrictions in use. -/
theorem MoreSpecific.trans (h : Ordered implies top restrictions) (ha : Uses restrictions a)
    (hb : Uses restrictions b) (hc : Uses restrictions c) (hab : MoreSpecific implies top a b)
    (hbc : MoreSpecific implies top b c) : MoreSpecific implies top a c :=
  ⟨hab.1.trans h ha hb hc hbc.1, hab.2.trans h ha hb hc hab.1 hbc.1 hbc.2⟩

end Shape

/-! ## Parameters by role -/

/-- **The left parameter of a role asks for at least as much as the right one.**  A role without a
parameter asks for as little as an optional one without a restriction; a required parameter asks for
more than an optional one, and other modes do not compare. -/
def AsksAtLeast {μ α : Type} (required optional : μ) (implies : α → α → Prop) (top : α) :
    Option (μ × α) → Option (μ × α) → Prop
  | _, none => True
  | none, some q => q = (optional, top)
  | some p, some q => (p.1 = required ∧ q.1 = optional ∨ p.1 = q.1) ∧ implies p.2 q.2

section Roles

variable {μ α : Type} {required optional : μ} {implies : α → α → Prop} {top : α}
  {restrictions : Set α} {a b c : Option (μ × α)}

/-- Asking for as much is transitive, if a mode that is neither required nor optional does not meet a
parameter that asks for nothing. -/
theorem AsksAtLeast.trans (h : Shape.Ordered implies top restrictions) (hmode : required ≠ optional)
    (ha : ∀ p, a = some p → p.2 ∈ restrictions) (hb : ∀ p, b = some p → p.2 ∈ restrictions)
    (hc : ∀ p, c = some p → p.2 ∈ restrictions)
    (hclash : ∀ p, a = some p → c = some (optional, top) → p.1 = required ∨ p.1 = optional)
    (hab : AsksAtLeast required optional implies top a b)
    (hbc : AsksAtLeast required optional implies top b c) :
    AsksAtLeast required optional implies top a c := by
  match a, b, c, hab, hbc with
  | _, _, none, _, _ => trivial
  | none, none, some _, _, hbc => exact hbc
  | some p, none, some r, _, hbc =>
    -- the middle one lacks the role, so the right one asks for nothing
    obtain rfl : r = (optional, top) := hbc
    exact ⟨(hclash p rfl rfl).imp_left fun hp => ⟨hp, rfl⟩, h.implies_top _⟩
  | none, some q, some r, hab, hbc =>
    obtain rfl : q = (optional, top) := hab
    obtain ⟨hmodes, himplies⟩ := hbc
    have hoptional : r.1 = optional := by
      rcases hmodes with ⟨heq, -⟩ | heq
      · exact absurd heq.symm hmode
      · exact heq.symm
    exact Prod.ext hoptional (h.eq_top _ himplies)
  | some p, some q, some r, ⟨hab, hpq⟩, ⟨hbc, hqr⟩ =>
    refine ⟨?_, h.trans _ (ha p rfl) _ (hb q rfl) _ (hc r rfl) hpq hqr⟩
    rcases hab with ⟨hp, hq⟩ | hpq
    · rcases hbc with ⟨hq', -⟩ | hqr
      · exact absurd (hq'.symm.trans hq) hmode
      · exact .inl ⟨hp, hqr.symm.trans hq⟩
    · rwa [hpq]

/-- Where the left parameter asks for as much, it asks for more exactly when the right one does not
ask for as much. -/
theorem AsksAtLeast.not_back_iff (hmode : required ≠ optional)
    (hab : AsksAtLeast required optional implies top a b) :
    ¬ AsksAtLeast required optional implies top b a ↔
      (∃ p, a = some p ∧ b = none ∧ p ≠ (optional, top)) ∨
        ∃ p q, a = some p ∧ b = some q ∧
          (p.1 = required ∧ q.1 = optional ∨ ¬ implies q.2 p.2) := by
  match a, b, hab with
  | none, b, _ => simp [AsksAtLeast]
  | some p, none, _ => simp [AsksAtLeast]
  | some p, some q, ⟨hmodes, himplies⟩ =>
    have hback : AsksAtLeast required optional implies top (some q) (some p) ↔
        (q.1 = required ∧ p.1 = optional ∨ q.1 = p.1) ∧ implies q.2 p.2 := Iff.rfl
    simp only [hback, Option.some.injEq, reduceCtorEq, false_and, and_false, exists_false, false_or,
      exists_eq_left', exists_and_left]
    rcases hmodes with ⟨hp, hq⟩ | hpq
    · have hne : ¬ (q.1 = required ∧ p.1 = optional ∨ q.1 = p.1) := by
        rw [hp, hq]
        exact not_or.mpr ⟨fun hbad => hmode hbad.2, hmode.symm⟩
      exact iff_of_true (fun hbad => hne hbad.1) (.inl ⟨hp, hq⟩)
    · have hne : ¬ (p.1 = required ∧ q.1 = optional) := fun hbad =>
        hmode (hbad.1.symm.trans (hpq.trans hbad.2))
      simp only [hpq, true_and, or_iff_right (hpq ▸ hne)]

end Roles
