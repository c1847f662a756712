import Mathlib.Order.Bounds.Basic
import Mathlib.Data.Set.Basic

/-!
# Lib/Saturation — inference systems, and keeping what they derive

An **inference system** has facts that are given and steps from a body of facts to a head; what it
derives is the least set that has the given facts and is closed under the steps.  Two rules keep
that set when the system changes:

* `Inference.derives_of_kept` — *delete*: what is kept of the old facts is derived anew, if no step
  to a kept fact lost its body.
* `Saturating` — *rederive*: facts in front of a settled set, none missing; moving the front in and
  looking only at the steps that use it keeps this up (`Saturating.advance`), and with nothing in
  front the settled set is what is derived (`Saturating.done`).

A loop that runs while it is busy is `loopWhile`, with fuel; `loopWhile_spec` runs it to its end.
-/

/-! ## Loops -/

section Loop

variable {σ ε : Type*} {busy : σ → Bool} {step : σ → Except ε σ}

/-- Run a step while busy; `none` when the fuel runs out. -/
def loopWhile (busy : σ → Bool) (step : σ → Except ε σ) : ℕ → σ → Option (Except ε σ)
  | 0, s => if busy s = true then none else some (.ok s)
  | fuel + 1, s =>
    if busy s = true then
      match step s with
      | .error e => some (.error e)
      | .ok s' => loopWhile busy step fuel s'
    else some (.ok s)

/-- **The loop rule**: a step that keeps the invariant and lowers the measure is run to the end. -/
theorem loopWhile_spec {inv : σ → Prop} {measure : σ → ℕ}
    (hstep : ∀ s, inv s → busy s = true →
      ∃ s', step s = .ok s' ∧ inv s' ∧ measure s' < measure s) :
    ∀ {fuel : ℕ} {s : σ}, inv s → measure s ≤ fuel →
      ∃ s', loopWhile busy step fuel s = some (.ok s') ∧ inv s' ∧ busy s' = false
  | 0, s, hs, hfuel => by
    by_cases hbusy : busy s = true
    · obtain ⟨s', -, -, hlt⟩ := hstep s hs hbusy
      omega
    · exact ⟨s, if_neg hbusy, hs, by simpa using hbusy⟩
  | fuel + 1, s, hs, hfuel => by
    by_cases hbusy : busy s = true
    · obtain ⟨s', hok, hs', hlt⟩ := hstep s hs hbusy
      obtain ⟨out, hout, hinv, hdone⟩ := loopWhile_spec hstep hs' (by omega : measure s' ≤ fuel)
      refine ⟨out, ?_, hinv, hdone⟩
      rwa [loopWhile, if_pos hbusy, hok]
    · exact ⟨s, if_neg hbusy, hs, by simpa using hbusy⟩

/-- The number of elements of a list that are not there yet. -/
def missing {φ : Type*} (elements : List φ) (there : φ → Prop) [DecidablePred there] : ℕ :=
  elements.countP fun f => decide (¬ there f)

section Missing

variable {φ : Type*} {elements : List φ} {there there' : φ → Prop} [DecidablePred there]
  [DecidablePred there']

theorem missing_le (h : ∀ f, there f → there' f) : missing elements there' ≤ missing elements there :=
  List.countP_mono_left fun f _ hf => decide_eq_true (mt (h f) (of_decide_eq_true hf))

/-- A new element makes one less. -/
theorem missing_lt (h : ∀ f, there f → there' f) {f : φ} (hf : f ∈ elements) (hnew : there' f)
    (hnot : ¬ there f) : missing elements there' < missing elements there := by
  obtain ⟨before, after, rfl⟩ := List.append_of_mem hf
  have hbefore : missing before there' ≤ missing before there := missing_le h
  have hafter : missing after there' ≤ missing after there := missing_le h
  unfold missing at *
  rw [List.countP_append, List.countP_append, List.countP_cons_of_neg (by simpa using hnew),
    List.countP_cons_of_pos (by simpa using hnot)]
  omega

end Missing

end Loop

/-! ## Inference systems -/

/-- Facts that are given, and steps from a body to a head. -/
structure Inference (φ : Type*) where
  given : Set φ
  step : List φ → φ → Prop

namespace Inference

variable {φ : Type*} {I old new : Inference φ}

/-- What a system derives. -/
inductive Derives (I : Inference φ) : φ → Prop
  | given {f : φ} : f ∈ I.given → I.Derives f
  | step {body : List φ} {head : φ} : I.step body head → (∀ g ∈ body, I.Derives g) → I.Derives head

/-- A fact is one step from a set. -/
def Infers (I : Inference φ) (facts : Set φ) (f : φ) : Prop :=
  ∃ body, I.step body f ∧ ∀ g ∈ body, g ∈ facts

/-- A set with the given facts that no step leaves. -/
def Closed (I : Inference φ) (facts : Set φ) : Prop :=
  I.given ⊆ facts ∧ ∀ f, I.Infers facts f → f ∈ facts

theorem Infers.mono {facts facts' : Set φ} (h : facts ⊆ facts') {f : φ} (hf : I.Infers facts f) :
    I.Infers facts' f := by
  obtain ⟨body, hstep, hbody⟩ := hf
  exact ⟨body, hstep, fun g hg => h (hbody g hg)⟩

theorem Derives.given_or_infers {f : φ} (h : I.Derives f) :
    f ∈ I.given ∨ I.Infers {g | I.Derives g} f := by
  cases h with
  | given hgiven => exact .inl hgiven
  | step hstep hbody => exact .inr ⟨_, hstep, hbody⟩

theorem Closed.derives {facts : Set φ} (h : I.Closed facts) {f : φ} (hf : I.Derives f) :
    f ∈ facts := by
  induction hf with
  | given hgiven => exact h.1 hgiven
  | step hstep _ ih => exact h.2 _ ⟨_, hstep, ih⟩

/-- **What is derived is the least closed set.** -/
theorem isLeast_derives (I : Inference φ) : IsLeast {facts | I.Closed facts} {f | I.Derives f} := by
  refine ⟨⟨fun f hf => .given hf, fun f hf => ?_⟩, fun facts h f hf => h.derives hf⟩
  obtain ⟨body, hstep, hbody⟩ := hf
  exact Derives.step hstep hbody

/-- **Delete**: kept facts are derived anew, if each step to one of them kept its body. -/
theorem derives_of_kept {kept : Set φ} (hgiven : ∀ f ∈ kept, f ∈ old.given → new.Derives f)
    (hstep : ∀ body head, old.step body head → (∀ g ∈ body, old.Derives g) → head ∈ kept →
      new.Derives head ∨ new.step body head ∧ ∀ g ∈ body, g ∈ kept)
    {f : φ} (hf : old.Derives f) (hkept : f ∈ kept) : new.Derives f := by
  induction hf with
  | given h => exact hgiven _ hkept h
  | step h hbody ih =>
    rcases hstep _ _ h hbody hkept with hnew | ⟨hnew, hkeeps⟩
    · exact hnew
    · exact .step hnew fun g hg => ih g hg (hkeeps g hg)

end Inference

/-! ## Saturation -/

/-- **A front that misses nothing**: what is one step from the settled facts, the given and the
inferred ones, is inferred already or in front, and all of it is right. -/
structure Saturating {φ : Type*} (I : Inference φ) (inferred front : Set φ) : Prop where
  sound : ∀ f ∈ inferred, I.Infers {g | I.Derives g} f
  front_sound : ∀ f ∈ front, I.Infers {g | I.Derives g} f
  next : ∀ f, I.Infers (I.given ∪ inferred) f → f ∈ inferred ∨ f ∈ front

namespace Saturating

variable {φ : Type*} {I : Inference φ} {inferred front front' : Set φ}

theorem derives (h : Saturating I inferred front) {f : φ} (hf : f ∈ I.given ∪ inferred) :
    I.Derives f := by
  rcases hf with hf | hf
  · exact .given hf
  · exact (I.isLeast_derives.1).2 f (h.sound f hf)

/-- **With nothing in front, everything is settled.** -/
theorem done (h : Saturating I inferred ∅) :
    (∀ f, f ∈ I.given ∪ inferred ↔ I.Derives f) ∧
      ∀ f, f ∈ inferred ↔ I.Infers {g | I.Derives g} f := by
  have hclosed : I.Closed (I.given ∪ inferred) :=
    ⟨Set.subset_union_left, fun f hf => .inr ((h.next f hf).resolve_right id)⟩
  have hall : ∀ f, f ∈ I.given ∪ inferred ↔ I.Derives f := fun f =>
    ⟨h.derives, fun hf => hclosed.derives hf⟩
  refine ⟨hall, fun f => ⟨h.sound f, fun hf => ?_⟩⟩
  exact (h.next f (hf.mono fun g hg => (hall g).mpr hg)).resolve_right id

/-- **Rederive**: the front moves in, and the new one comes from the steps that use it. -/
theorem advance (h : Saturating I inferred front)
    (hfront : ∀ f ∈ front', I.Infers (I.given ∪ (inferred ∪ front)) f)
    (hcover : ∀ body f, I.step body f → (∀ g ∈ body, g ∈ I.given ∪ (inferred ∪ front)) →
      (∃ g ∈ body, g ∈ front) → f ∈ inferred ∪ front ∨ f ∈ front') :
    Saturating I (inferred ∪ front) front' := by
  have hsound : ∀ f ∈ inferred ∪ front, I.Infers {g | I.Derives g} f := fun f hf =>
    hf.elim (h.sound f) (h.front_sound f)
  have hderives : I.given ∪ (inferred ∪ front) ⊆ {g | I.Derives g} := by
    rintro g (hg | hg)
    · exact .given hg
    · exact (I.isLeast_derives.1).2 g (hsound g hg)
  refine ⟨hsound, fun f hf => (hfront f hf).mono hderives, fun f hf => ?_⟩
  obtain ⟨body, hstep, hbody⟩ := hf
  by_cases huse : ∃ g ∈ body, g ∈ front
  · exact hcover body f hstep hbody huse
  -- a step that does not use the front was there before
  have hbefore : I.Infers (I.given ∪ inferred) f := by
    refine ⟨body, hstep, fun g hg => ?_⟩
    rcases hbody g hg with h | h | h
    · exact .inl h
    · exact .inr h
    · exact absurd ⟨g, hg, h⟩ huse
  exact .inl (h.next f hbefore)

end Saturating
