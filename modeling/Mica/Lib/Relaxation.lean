import Mathlib.Algebra.BigOperators.Group.Finset.Basic
import Mathlib.Algebra.Order.BigOperators.Group.Finset
import Mathlib.Data.Finset.Card
import Mathlib.Logic.Function.Iterate

/-!
# Lib/Relaxation — levels by iterated relaxation

A constraint asks that a node be at least some distance above others.  Every pass raises each head to
what its constraints ask of it, one constraint after the other, and the passes stop at the first that
changes nothing.

* `levels_sound` — what they stop at satisfies every constraint.
* `exists_levels` — if anything satisfies them, they stop after at most as many passes as there are
  heads, and one more to see it.
-/

open List Function Finset

namespace Relaxation

variable {α : Type} [DecidableEq α]

/-- The head is at least the given distance above each node below it. -/
structure Constraint (α : Type) where
  head : α
  below : List (α × ℕ)

/-- **The levels satisfy every constraint.** -/
def Satisfies (cs : List (Constraint α)) (level : α → ℕ) : Prop :=
  ∀ c ∈ cs, ∀ d ∈ c.below, level d.1 + d.2 ≤ level c.head

/-- The level that a constraint asks of its head, which starts at its own. -/
def required (level : α → ℕ) (c : Constraint α) : ℕ :=
  c.below.foldl (fun r d => if r < level d.1 + d.2 then level d.1 + d.2 else r) (level c.head)

/-- Relax one constraint, and note whether that changed anything. -/
def relax (s : (α → ℕ) × Bool) (c : Constraint α) : (α → ℕ) × Bool :=
  let r := required s.1 c
  if s.1 c.head ≠ r then (Function.update s.1 c.head r, true) else s

/-- One pass over the constraints. -/
def pass (cs : List (Constraint α)) (level : α → ℕ) : (α → ℕ) × Bool :=
  cs.foldl relax (level, false)

/-- At most so many passes, up to the first that changes nothing. -/
def levels (cs : List (Constraint α)) : ℕ → (α → ℕ) → Option (α → ℕ)
  | 0, _ => none
  | n + 1, level =>
    match pass cs level with
    | (level, false) => some level
    | (level, true) => levels cs n level

/-! ## One constraint -/

section Required

variable {level : α → ℕ} {c : Constraint α}

omit [DecidableEq α] in
theorem foldl_raise (level : α → ℕ) : ∀ (below : List (α × ℕ)) (r : ℕ),
    r ≤ below.foldl (fun r d => if r < level d.1 + d.2 then level d.1 + d.2 else r) r ∧
    (∀ d ∈ below, level d.1 + d.2 ≤
      below.foldl (fun r d => if r < level d.1 + d.2 then level d.1 + d.2 else r) r) ∧
    (below.foldl (fun r d => if r < level d.1 + d.2 then level d.1 + d.2 else r) r = r ∨
      ∃ d ∈ below, below.foldl (fun r d => if r < level d.1 + d.2 then level d.1 + d.2 else r) r =
        level d.1 + d.2)
  | [], r => ⟨le_rfl, by simp, .inl rfl⟩
  | d :: below, r => by
    obtain ⟨hle, hall, hattained⟩ := foldl_raise level below
      (if r < level d.1 + d.2 then level d.1 + d.2 else r)
    have hr : r ≤ if r < level d.1 + d.2 then level d.1 + d.2 else r := by split_ifs <;> omega
    have hd : level d.1 + d.2 ≤ if r < level d.1 + d.2 then level d.1 + d.2 else r := by
      split_ifs <;> omega
    refine ⟨hr.trans hle, forall_mem_cons.mpr ⟨hd.trans hle, hall⟩, ?_⟩
    rw [foldl_cons]
    rcases hattained with heq | ⟨e, he, heq⟩
    · rw [heq]
      split_ifs
      · exact .inr ⟨d, mem_cons_self, rfl⟩
      · exact .inl rfl
    · exact .inr ⟨e, mem_cons_of_mem d he, heq⟩

omit [DecidableEq α] in
theorem le_required : level c.head ≤ required level c := (foldl_raise level c.below _).1

omit [DecidableEq α] in
theorem add_le_required {d : α × ℕ} (hd : d ∈ c.below) : level d.1 + d.2 ≤ required level c :=
  (foldl_raise level c.below _).2.1 d hd

omit [DecidableEq α] in
/-- The level that is asked for is the head's own or comes from one node below. -/
theorem required_cases (level : α → ℕ) (c : Constraint α) : required level c = level c.head ∨
    ∃ d ∈ c.below, required level c = level d.1 + d.2 := (foldl_raise level c.below _).2.2

theorem relax_fst (s : (α → ℕ) × Bool) (c : Constraint α) :
    (relax s c).1 = Function.update s.1 c.head (required s.1 c) := by
  unfold relax
  dsimp only
  split_ifs with h
  · rfl
  · rw [← not_not.mp h, update_eq_self]

theorem le_relax (s : (α → ℕ) × Bool) (c : Constraint α) : s.1 ≤ (relax s c).1 := by
  rw [relax_fst]
  intro x
  by_cases hx : x = c.head
  · rw [hx, update_self]
    exact le_required
  · rw [update_of_ne hx]

end Required

/-! ## One pass -/

section Pass

variable {cs : List (Constraint α)} {level bound : α → ℕ}

/-- The levels after a pass. -/
def next (cs : List (Constraint α)) (level : α → ℕ) : α → ℕ := (pass cs level).1

theorem le_foldl_relax : ∀ (cs : List (Constraint α)) (s : (α → ℕ) × Bool),
    s.1 ≤ (cs.foldl relax s).1
  | [], _ => le_rfl
  | c :: cs, s => (le_relax s c).trans (le_foldl_relax cs (relax s c))

theorem le_next : level ≤ next cs level := le_foldl_relax cs (level, false)

/-- What every relaxation keeps, the whole pass keeps. -/
theorem foldl_relax_induction {P : (α → ℕ) → Prop} {s : (α → ℕ) × Bool} (h : P s.1)
    (hstep : ∀ s : (α → ℕ) × Bool, ∀ c ∈ cs, P s.1 → P (relax s c).1) :
    P (cs.foldl relax s).1 := by
  induction cs generalizing s with
  | nil => exact h
  | cons c cs ih =>
    exact ih (hstep s c mem_cons_self h) fun s d hd => hstep s d (mem_cons_of_mem c hd)

omit [DecidableEq α] in
/-- A constraint asks no more of its head than a solution above gives it. -/
theorem required_le {c : Constraint α} (hbound : Satisfies cs bound) (hc : c ∈ cs)
    (h : level ≤ bound) : required level c ≤ bound c.head := by
  rcases required_cases level c with heq | ⟨d, hd, heq⟩
  · exact heq.trans_le (h c.head)
  · exact heq.trans_le ((Nat.add_le_add_right (h d.1) d.2).trans (hbound c hc d hd))

/-- Levels below a solution stay below it. -/
theorem next_le (hbound : Satisfies cs bound) (h : level ≤ bound) : next cs level ≤ bound := by
  refine foldl_relax_induction (P := fun l => l ≤ bound) h fun s c hc hs => ?_
  rw [relax_fst]
  intro x
  by_cases hx : x = c.head
  · rw [hx, update_self]
    exact required_le hbound hc hs
  · rw [update_of_ne hx]
    exact hs x

/-- A node that no constraint raises stays where it is. -/
theorem next_of_not_head {x : α} (hx : ∀ c ∈ cs, c.head ≠ x) : next cs level x = level x := by
  refine foldl_relax_induction (P := fun l => l x = level x) rfl fun s c hc hs => ?_
  rw [relax_fst, update_of_ne (hx c hc).symm, hs]

/-- After a pass every constraint holds with the levels before it below. -/
theorem add_le_next (level : α → ℕ) {c : Constraint α} (hc : c ∈ cs) {d : α × ℕ} (hd : d ∈ c.below) :
    level d.1 + d.2 ≤ next cs level c.head := by
  have hfold : ∀ (cs : List (Constraint α)) (s : (α → ℕ) × Bool), level ≤ s.1 → c ∈ cs →
      level d.1 + d.2 ≤ (cs.foldl relax s).1 c.head := by
    intro cs
    induction cs with
    | nil => exact nofun
    | cons e cs ih =>
      intro s hs hmem
      rcases mem_cons.mp hmem with rfl | hmem
      · refine le_trans ?_ (le_foldl_relax cs (relax s c) c.head)
        rw [relax_fst, update_self]
        exact (Nat.add_le_add_right (hs d.1) d.2).trans (add_le_required hd)
      · exact ih (relax s e) (hs.trans (le_relax s e)) hmem
  exact hfold cs (level, false) le_rfl hc

/-- **The flag is up exactly when the pass changed something.** -/
theorem pass_snd (cs : List (Constraint α)) (level : α → ℕ) :
    (pass cs level).2 = false ↔ next cs level = level := by
  have hfold : ∀ (cs : List (Constraint α)) (s : (α → ℕ) × Bool),
      (cs.foldl relax s).2 = false ↔ s.2 = false ∧ (cs.foldl relax s).1 = s.1 := by
    intro cs
    induction cs with
    | nil => simp
    | cons c cs ih =>
      intro s
      rw [foldl_cons, ih]
      by_cases hc : s.1 c.head = required s.1 c
      · have hs : relax s c = s := by
          unfold relax
          rw [if_neg (not_not.mpr hc)]
        rw [hs]
      have hs : relax s c = (Function.update s.1 c.head (required s.1 c), true) := by
        unfold relax
        rw [if_pos hc]
      refine iff_of_false ?_ fun h => hc ?_
      · rw [hs]
        exact fun h => nomatch h.1
      · have hle := le_foldl_relax cs (relax s c) c.head
        rw [h.2, relax_fst, update_self] at hle
        exact le_antisymm le_required hle
  rw [pass, hfold, and_iff_right rfl]
  rfl

theorem satisfies_of_next_eq (h : next cs level = level) : Satisfies cs level := fun c hc _ hd =>
  (add_le_next level hc hd).trans_eq (congrFun h c.head)

end Pass

/-! ## Passes up to the first that changes nothing -/

section Levels

variable {cs : List (Constraint α)} {level : α → ℕ}

theorem levels_eq_none {n : ℕ} : levels cs n level = none ↔
    ∀ k < n, next cs ((next cs)^[k] level) ≠ (next cs)^[k] level := by
  induction n generalizing level with
  | zero => simp [levels]
  | succ n ih =>
    have hflag := pass_snd cs level
    unfold levels
    split
    · next level' hpass =>
      rw [hpass] at hflag
      refine iff_of_false nofun fun h => h 0 n.succ_pos (hflag.mp rfl)
    rename_i level' hpass
    have hnext : next cs level = level' := congrArg Prod.fst hpass
    rw [hpass] at hflag
    have hne : next cs level ≠ level := fun h => nomatch hflag.mpr h
    rw [ih]
    constructor
    · intro h k hk
      cases k with
      | zero => exact hne
      | succ k =>
        rw [iterate_succ_apply, hnext]
        exact h k (Nat.lt_of_succ_lt_succ hk)
    · intro h k hk
      rw [← hnext, ← iterate_succ_apply]
      exact h (k + 1) (Nat.succ_lt_succ hk)

/-- **What the passes stop at satisfies every constraint.** -/
theorem levels_sound {n : ℕ} {level' : α → ℕ} (h : levels cs n level = some level') :
    Satisfies cs level' := by
  induction n generalizing level with
  | zero => exact nomatch h
  | succ n ih =>
    have hflag := pass_snd cs level
    unfold levels at h
    split at h
    · next level'' hpass =>
      obtain rfl := Option.some.inj h
      rw [hpass] at hflag
      have hsame := hflag.mp rfl
      have hnext : next cs level = level'' := congrArg Prod.fst hpass
      rw [← hnext, hsame]
      exact satisfies_of_next_eq hsame
    · exact ih h

/-- The heads of the constraints. -/
def heads (cs : List (Constraint α)) : Finset α := (cs.map Constraint.head).toFinset

theorem head_mem_heads {c : Constraint α} (hc : c ∈ cs) : c.head ∈ heads cs :=
  mem_toFinset.mpr (mem_map_of_mem hc)

/-- The levels after so many passes from the bottom. -/
def after (cs : List (Constraint α)) (k : ℕ) : α → ℕ := (next cs)^[k] fun _ => 0

theorem after_succ (k : ℕ) : after cs (k + 1) = next cs (after cs k) :=
  iterate_succ_apply' _ _ _

theorem after_le_succ (k : ℕ) : after cs k ≤ after cs (k + 1) := by
  rw [after_succ]
  exact le_next

theorem after_of_notMem_heads {x : α} (hx : x ∉ heads cs) (k : ℕ) : after cs k x = 0 := by
  induction k with
  | zero => rfl
  | succ k ih =>
    rw [after_succ, next_of_not_head, ih]
    rintro c hc rfl
    exact hx (head_mem_heads hc)

theorem after_le {bound : α → ℕ} (hbound : Satisfies cs bound) (k : ℕ) : after cs k ≤ bound := by
  induction k with
  | zero => exact fun _ => Nat.zero_le _
  | succ k ih =>
    rw [after_succ]
    exact next_le hbound ih

/-- Passes that stay below a bound come to rest: each one that changes something raises a head. -/
theorem exists_next_eq {bound : α → ℕ} (hbound : Satisfies cs bound) :
    ∃ k, next cs (after cs k) = after cs k := by
  by_contra hnever
  simp only [not_exists] at hnever
  have hsum : ∀ k, k ≤ ∑ x ∈ heads cs, after cs k x := by
    intro k
    induction k with
    | zero => exact Nat.zero_le _
    | succ k ih =>
      obtain ⟨x, hx⟩ := ne_iff.mp (hnever k)
      rw [← after_succ] at hx
      have hmem : x ∈ heads cs := by
        by_contra hout
        exact hx ((after_of_notMem_heads hout _).trans (after_of_notMem_heads hout _).symm)
      have hlt : ∑ x ∈ heads cs, after cs k x < ∑ x ∈ heads cs, after cs (k + 1) x :=
        sum_lt_sum (fun y _ => after_le_succ k y)
          ⟨x, hmem, lt_of_le_of_ne (after_le_succ k x) hx.symm⟩
      omega
  have hle : ∑ x ∈ heads cs, after cs (∑ x ∈ heads cs, bound x + 1) x ≤
      ∑ x ∈ heads cs, bound x := Finset.sum_le_sum fun x _ => after_le hbound _ x
  have hge := hsum (∑ x ∈ heads cs, bound x + 1)
  omega

/-- **If a pass brings no new head to its final level, no later pass does.** -/
theorem settled_of_settled {final : α → ℕ} (hfinal : Satisfies cs final)
    (hle : next cs level ≤ final)
    (hsettled : ∀ x, next cs level x = final x → level x = final x) (x : α)
    (hx : next cs (next cs level) x = final x) : next cs level x = final x := by
  have hkeep : next cs (next cs level) ≤ final ∧
      ∀ x, next cs (next cs level) x = final x → next cs level x = final x := by
    refine foldl_relax_induction (P := fun l => l ≤ final ∧
      ∀ x, l x = final x → next cs level x = final x) ⟨hle, fun _ h => h⟩ ?_
    rintro s c hc ⟨hs, hkeep⟩
    rw [relax_fst]
    refine ⟨fun y => ?_, fun y hy => ?_⟩
    · by_cases hyc : y = c.head
      · rw [hyc, update_self]
        exact required_le hfinal hc hs
      · rw [update_of_ne hyc]
        exact hs y
    by_cases hyc : y = c.head
    · rw [hyc, update_self] at hy
      rw [hyc]
      rcases required_cases s.1 c with heq | ⟨d, hd, heq⟩
      · exact hkeep c.head (heq.symm.trans hy)
      -- the node below was final already, so the pass before has raised the head
      have hdle : final d.1 + d.2 ≤ final c.head := hfinal c hc d hd
      have hdge : s.1 d.1 ≤ final d.1 := hs d.1
      have hsum : s.1 d.1 + d.2 = final c.head := heq.symm.trans hy
      have hdfinal : s.1 d.1 = final d.1 := by omega
      have hbefore : level d.1 = final d.1 := hsettled d.1 (hkeep d.1 hdfinal)
      have hraised : level d.1 + d.2 ≤ next cs level c.head := add_le_next level hc hd
      exact le_antisymm (hle c.head) (by omega)
    · rw [update_of_ne hyc] at hy
      exact hkeep y hy
  exact hkeep.2 x hx

/-- A growing chain of sets that stops growing once it rests fills its bound within as many steps as
the bound has members. -/
theorem chain_fills {F : ℕ → Finset α} {U : Finset α} (hsub : ∀ k, F k ⊆ U)
    (hmono : ∀ k, F k ⊆ F (k + 1)) (hrest : ∀ k, F k = F (k + 1) → F (k + 1) = F (k + 2))
    {last : ℕ} (hlast : F last = U) : F U.card = U := by
  have hmono' : Monotone F := monotone_nat_of_le_succ hmono
  have hstay : ∀ k, F k = F (k + 1) → ∀ j, F (k + j) = F k ∧ F (k + j + 1) = F k := by
    intro k hk j
    induction j with
    | zero => exact ⟨rfl, hk.symm⟩
    | succ j ih => exact ⟨ih.2, (hrest (k + j) (ih.1.trans ih.2.symm)).symm.trans ih.2⟩
  have hfull : ∀ k, F k = F (k + 1) → F k = U := by
    intro k hk
    rcases le_total k last with hle | hle
    · obtain ⟨j, rfl⟩ := Nat.exists_eq_add_of_le hle
      exact (hstay k hk j).1.symm.trans hlast
    · exact Finset.Subset.antisymm (hsub k) (hlast ▸ hmono' hle)
  have hcount : ∀ k, F k = U ∨ k ≤ (F k).card := by
    intro k
    induction k with
    | zero => exact .inr (Nat.zero_le _)
    | succ k ih =>
      rcases ih with ih | ih
      · exact .inl (Finset.Subset.antisymm (hsub _) (ih ▸ hmono k))
      · by_cases hsame : F k = F (k + 1)
        · exact .inl (hsame ▸ hfull k hsame)
        · have hlt := card_lt_card ((hmono k).ssubset_of_ne hsame)
          exact .inr (by omega)
  rcases hcount U.card with h | h
  · exact h
  · exact eq_of_subset_of_card_le (hsub _) h

/-- **Passes stop in time**: as many as there are heads, and one more. -/
theorem exists_levels {bound : α → ℕ} (hbound : Satisfies cs bound) :
    ∃ level, levels cs ((heads cs).card + 1) (fun _ => 0) = some level := by
  obtain ⟨last, hlast⟩ := exists_next_eq hbound
  have hfinal : Satisfies cs (after cs last) := satisfies_of_next_eq hlast
  have hle : ∀ k, after cs k ≤ after cs last := after_le hfinal
  -- the heads that have reached their final level
  have hfills := chain_fills (F := fun k => (heads cs).filter fun x => after cs k x = after cs last x)
    (U := heads cs) (fun k => filter_subset _ _) (fun k x hx => ?_) (fun k hk => ?_)
    (filter_true_of_mem fun _ _ => rfl)
  rotate_left
  · obtain ⟨hmem, heq⟩ := Finset.mem_filter.mp hx
    exact Finset.mem_filter.mpr
      ⟨hmem, le_antisymm (hle (k + 1) x) (heq.symm.trans_le (after_le_succ k x))⟩
  · have hsettled : ∀ y, next cs (after cs k) y = after cs last y →
        after cs k y = after cs last y := by
      intro y hy
      rw [← after_succ] at hy
      by_cases hyh : y ∈ heads cs
      · have hdone : y ∈ (heads cs).filter fun x => after cs (k + 1) x = after cs last x :=
          Finset.mem_filter.mpr ⟨hyh, hy⟩
        rw [← hk] at hdone
        exact (Finset.mem_filter.mp hdone).2
      · exact (after_of_notMem_heads hyh k).trans (after_of_notMem_heads hyh last).symm
    refine filter_congr fun x _ => ⟨fun h => ?_, fun h => ?_⟩
    · exact le_antisymm (hle _ x) (h.symm.trans_le (after_le_succ (k + 1) x))
    rw [after_succ] at h ⊢
    rw [after_succ] at h
    refine settled_of_settled hfinal ?_ hsettled x h
    rw [← after_succ]
    exact hle (k + 1)
  have hrest : next cs (after cs (heads cs).card) = after cs (heads cs).card := by
    have heq : after cs (heads cs).card = after cs last := by
      funext x
      by_cases hx : x ∈ heads cs
      · rw [← hfills] at hx
        exact (Finset.mem_filter.mp hx).2
      · exact (after_of_notMem_heads hx _).trans (after_of_notMem_heads hx last).symm
    rw [heq, hlast]
  by_contra hnone
  have hnone : levels cs ((heads cs).card + 1) (fun _ => 0) = none :=
    Option.eq_none_iff_forall_not_mem.mpr fun level h => hnone ⟨level, h⟩
  exact levels_eq_none.mp hnone (heads cs).card (Nat.lt_succ_self _) hrest

end Levels

end Relaxation
