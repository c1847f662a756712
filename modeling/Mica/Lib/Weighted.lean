import Mathlib.LinearAlgebra.Finsupp.LinearCombination
import Mica.Lib.SortedList

/-!
# Lib/Weighted — weighted sets and the delta of a chain of joins

A **weighted set** is a finitely supported `κ →₀ ℤ`; the formal sum `entries` of a list of weighted
entries is one.  A partial operation `step : β → τ → Option γ` extends to a bilinear `join`, and a
chain of such joins is a product with one factor per step.  Two rules carry a delta evaluation:

* `Change.sum_chain_pivot` — the pivots *new before, delta at, old after* add up to the change of a
  product, whatever the steps are.
* `chain_perm` — steps that commute may be joined in any order.
-/

open Finsupp List

namespace Weighted

variable {β τ γ κ : Type*}

/-! ## Formal sums -/

/-- The formal sum of a list of weighted entries. -/
noncomputable def entries (es : List (κ × ℤ)) : κ →₀ ℤ := (es.map fun e => single e.1 e.2).sum

/-- The indicator of the members of a list. -/
noncomputable def indicator (l : List κ) : κ →₀ ℤ := (l.map fun a => single a 1).sum

@[simp] theorem entries_nil : entries ([] : List (κ × ℤ)) = 0 := rfl

@[simp] theorem entries_cons (e : κ × ℤ) (es : List (κ × ℤ)) :
    entries (e :: es) = single e.1 e.2 + entries es := List.sum_cons

theorem entries_append (es fs : List (κ × ℤ)) : entries (es ++ fs) = entries es + entries fs := by
  rw [entries, map_append, sum_append]
  rfl

theorem entries_perm {es fs : List (κ × ℤ)} (h : es.Perm fs) : entries es = entries fs :=
  (h.map _).sum_eq

/-- A formal sum at a key is the sum of the weights there. -/
theorem entries_apply [DecidableEq κ] (k : κ) : ∀ es : List (κ × ℤ),
    entries es k = ((es.filter fun e => e.1 = k).map Prod.snd).sum
  | [] => rfl
  | e :: es => by
    rw [entries_cons, Finsupp.add_apply, entries_apply k es, single_apply, filter_cons]
    by_cases h : e.1 = k
    · simp [h]
    · simp [h]

theorem entries_apply_of_notMem {es : List (κ × ℤ)} {k : κ} (h : k ∉ es.map Prod.fst) :
    entries es k = 0 := by
  classical
  rw [entries_apply]
  have hnone : es.filter (fun e => e.1 = k) = [] :=
    filter_eq_nil_iff.mpr fun e he hek =>
      h (mem_map.mpr ⟨e, he, of_decide_eq_true hek⟩)
  rw [hnone]
  rfl

/-- With distinct keys, the weight of a key is that of its entry. -/
theorem entries_apply_of_nodup : ∀ {es : List (κ × ℤ)}, (es.map Prod.fst).Nodup →
    ∀ {k : κ} {d : ℤ}, (k, d) ∈ es → entries es k = d
  | (k', d') :: es, hnodup, k, d, hmem => by
    classical
    obtain ⟨hnot, hrest⟩ := nodup_cons.mp hnodup
    rw [entries_cons, Finsupp.add_apply, single_apply]
    rcases mem_cons.mp hmem with h | h
    · obtain ⟨rfl, rfl⟩ := Prod.mk.inj h
      rw [if_pos rfl, entries_apply_of_notMem hnot, add_zero]
    · have hne : k' ≠ k := fun heq => hnot (mem_map.mpr ⟨_, h, heq.symm⟩)
      rw [if_neg hne, zero_add, entries_apply_of_nodup hrest h]

/-- Distinct keys with weights of one keep every weight at one. -/
theorem abs_entries_le {es : List (κ × ℤ)} (hnodup : (es.map Prod.fst).Nodup)
    (hunit : ∀ e ∈ es, |e.2| ≤ 1) (k : κ) : |entries es k| ≤ 1 := by
  by_cases h : k ∈ es.map Prod.fst
  · obtain ⟨⟨k', d⟩, he, rfl⟩ := mem_map.mp h
    rw [entries_apply_of_nodup hnodup he]
    exact hunit _ he
  · rw [entries_apply_of_notMem h, abs_zero]
    exact zero_le_one

theorem indicator_eq (l : List κ) : indicator l = entries (l.map fun a => (a, 1)) := by
  rw [indicator, entries, map_map]
  rfl

theorem indicator_apply [BEq κ] [LawfulBEq κ] (k : κ) (l : List κ) :
    indicator l k = l.count k := by
  classical
  induction l with
  | nil => rfl
  | cons a l ih =>
    rw [indicator, map_cons, List.sum_cons, Finsupp.add_apply, ← indicator, ih, single_apply,
      count_cons]
    by_cases h : a = k
    · simp [h, add_comm]
    · simp [h]

theorem indicator_apply_of_nodup [DecidableEq κ] {l : List κ} (h : l.Nodup) (k : κ) :
    indicator l k = if k ∈ l then 1 else 0 := by
  rw [indicator_apply, h.count]
  split <;> rfl

theorem indicator_flatMap {α : Type*} (f : α → List κ) (l : List α) :
    indicator (l.flatMap f) = (l.map fun a => indicator (f a)).sum := by
  induction l with
  | nil => rfl
  | cons a l ih =>
    rw [flatMap_cons, map_cons, List.sum_cons, ← ih, indicator, map_append,
      sum_append]
    rfl

/-- The total weight of the keys that pass a test. -/
noncomputable def total (p : κ → Bool) : (κ →₀ ℤ) →ₗ[ℤ] ℤ :=
  linearCombination ℤ fun k => if p k = true then 1 else 0

theorem total_entries (p : κ → Bool) (es : List (κ × ℤ)) :
    total p (entries es) = ((es.filter fun e => p e.1).map Prod.snd).sum := by
  induction es with
  | nil => exact map_zero _
  | cons e es ih =>
    rw [entries_cons, map_add, ih, total, linearCombination_single, filter_cons]
    by_cases h : p e.1 = true
    · simp [h]
    · simp [h]

theorem total_indicator (p : κ → Bool) (l : List κ) : total p (indicator l) = l.countP p := by
  induction l with
  | nil => exact map_zero _
  | cons a l ih =>
    rw [indicator, map_cons, List.sum_cons, map_add, ← indicator, ih, total,
      linearCombination_single, countP_cons]
    by_cases h : p a = true
    · simp [h, add_comm]
    · simp [h]

/-- Keys that are counted once are counted by a test they all pass. -/
theorem sum_count_le [BEq κ] [LawfulBEq κ] {p : κ → Bool} {keys : List κ} (hnodup : keys.Nodup)
    (hp : ∀ k ∈ keys, p k = true) (l : List κ) :
    (keys.map fun k => l.count k).sum ≤ l.countP p := by
  induction l with
  | nil => simp
  | cons a l ih =>
    have hone : ∀ ks : List κ, (ks.map fun k => if (a == k) = true then 1 else 0).sum =
      ks.count a := by
      intro ks
      induction ks with
      | nil => rfl
      | cons k ks ih =>
        rw [map_cons, List.sum_cons, ih, count_cons, add_comm]
        by_cases h : a = k
        · simp [h]
        · simp [h, Ne.symm h]
    simp only [count_cons, sum_map_add, countP_cons, hone]
    have hcount : keys.count a ≤ if p a = true then 1 else 0 := by
      by_cases ha : a ∈ keys
      · rw [if_pos (hp a ha)]
        exact nodup_iff_count_le_one.mp hnodup a
      · rw [count_eq_zero_of_not_mem ha]
        exact Nat.zero_le _
    omega

/-! ## Joins -/

/-- The point mass at an optional key. -/
noncomputable def point (o : Option γ) : γ →₀ ℤ := o.elim 0 fun c => single c 1

@[simp] theorem point_none : point (none : Option γ) = 0 := rfl

@[simp] theorem point_some (c : γ) : point (some c) = single c 1 := rfl

/-- **The join along a partial operation**: its bilinear extension to weighted sets. -/
noncomputable def join (step : β → τ → Option γ) : (β →₀ ℤ) →ₗ[ℤ] (τ →₀ ℤ) →ₗ[ℤ] (γ →₀ ℤ) :=
  linearCombination ℤ fun b => linearCombination ℤ fun t => point (step b t)

theorem join_single (step : β → τ → Option γ) (b : β) (t : τ) (v w : ℤ) :
    join step (single b v) (single t w) = (v * w) • point (step b t) := by
  rw [join, linearCombination_single, LinearMap.smul_apply, linearCombination_single, mul_smul]

/-- The entries of a join: each pair that the operation accepts, with the product of the weights. -/
def pairEntries (step : β → τ → Option γ) (us : List (β × ℤ)) (rs : List (τ × ℤ)) :
    List (γ × ℤ) :=
  (us ×ˢ rs).filterMap fun p => (step p.1.1 p.2.1).map fun c => (c, p.1.2 * p.2.2)

theorem entries_pairEntries (step : β → τ → Option γ) (us : List (β × ℤ)) (rs : List (τ × ℤ)) :
    entries (pairEntries step us rs) = join step (entries us) (entries rs) := by
  induction us with
  | nil => simp [pairEntries]
  | cons u us ih =>
    rw [pairEntries, product_cons, filterMap_append, entries_append, entries_cons,
      map_add, LinearMap.add_apply, ← ih]
    congr 1
    clear ih
    induction rs with
    | nil => simp
    | cons r rs ih =>
      rw [entries_cons, map_add, ← ih, join_single, map_cons, filterMap_cons]
      rcases h : step u.1 r.1 with _ | c
      · simp
      simp

theorem nodup_filterMap_of_injOn {α : Type*} {f : α → Option γ} {l : List α} (hl : l.Nodup)
    (hf : ∀ a ∈ l, ∀ a' ∈ l, ∀ c, f a = some c → f a' = some c → a = a') :
    (l.filterMap f).Nodup := by
  refine pairwise_filterMap.mpr (hl.imp_of_mem fun {a a'} ha ha' hne c hc c' hc' heq => ?_)
  exact hne (hf a ha a' ha' c hc (heq ▸ hc'))

/-- A key remembers the pair it came from, so the keys of a join are distinct. -/
theorem nodup_pairEntries {step : β → τ → Option γ} {us : List (β × ℤ)} {rs : List (τ × ℤ)}
    (hus : (us.map Prod.fst).Nodup) (hrs : (rs.map Prod.fst).Nodup)
    (hstep : ∀ u ∈ us, ∀ r ∈ rs, ∀ u' ∈ us, ∀ r' ∈ rs, ∀ c, step u.1 r.1 = some c →
      step u'.1 r'.1 = some c → u.1 = u'.1 ∧ r.1 = r'.1) :
    ((pairEntries step us rs).map Prod.fst).Nodup := by
  rw [pairEntries, map_filterMap]
  refine nodup_filterMap_of_injOn ((hus.of_map _).product (hrs.of_map _)) ?_
  rintro ⟨u, r⟩ hp ⟨u', r'⟩ hp' c hc hc'
  obtain ⟨hu, hr⟩ := mem_product.mp hp
  obtain ⟨hu', hr'⟩ := mem_product.mp hp'
  have hget : ∀ o : Option γ, ∀ w : ℤ, (o.map fun c => (c, w)).map Prod.fst = o := by
    intro o w
    cases o <;> rfl
  dsimp only at hc hc'
  rw [hget] at hc hc'
  obtain ⟨heq, heq'⟩ := hstep u hu r hr u' hu' r' hr' c hc hc'
  exact Prod.ext (inj_on_of_nodup_map hus hu hu' heq)
    (inj_on_of_nodup_map hrs hr hr' heq')

/-- Commuting operations may be joined in either order. -/
theorem join_join_comm {step step' : β → τ → Option β}
    (h : ∀ b s t, (step b s).bind (step' · t) = (step' b t).bind (step · s))
    (u : β →₀ ℤ) (r s : τ →₀ ℤ) :
    join step' (join step u r) s = join step (join step' u s) r := by
  induction u using Finsupp.induction_linear with
  | zero => simp
  | add u v hu hv => simp only [map_add, LinearMap.add_apply, hu, hv]
  | single b w =>
    induction r using Finsupp.induction_linear with
    | zero => simp
    | add r r' hr hr' => simp only [map_add, LinearMap.add_apply, hr, hr']
    | single x v =>
      induction s using Finsupp.induction_linear with
      | zero => simp
      | add s s' hs hs' => simp only [map_add, LinearMap.add_apply, hs, hs']
      | single y z =>
        have hpoint : ∀ (g : β → τ → Option β) (o : Option β) (t : τ),
            join g (point o) (single t 1) = point (o.bind (g · t)) := by
          intro g o t
          cases o with
          | none => simp
          | some c => simp [join_single]
        have hz : ∀ (t : τ) (k : ℤ), single t k = k • single t (1 : ℤ) := by simp
        rw [join_single, join_single, map_smul, map_smul, LinearMap.smul_apply,
          LinearMap.smul_apply, hz y z, hz x v, map_smul, map_smul, hpoint, hpoint, h b x y,
          smul_smul, smul_smul]
        congr 1
        ring

/-! ## Chains -/

/-- One step of a chain with the weighted set it joins. -/
abbrev Factor (β τ : Type*) := (β → τ → Option β) × (τ →₀ ℤ)

/-- A chain of joins. -/
noncomputable def chain (fs : List (Factor β τ)) (u : β →₀ ℤ) : β →₀ ℤ :=
  fs.foldl (fun u f => join f.1 u f.2) u

@[simp] theorem chain_cons (f : Factor β τ) (fs : List (Factor β τ)) (u : β →₀ ℤ) :
    chain (f :: fs) u = chain fs (join f.1 u f.2) := rfl

theorem chain_add (fs : List (Factor β τ)) (u v : β →₀ ℤ) :
    chain fs (u + v) = chain fs u + chain fs v := by
  induction fs generalizing u v with
  | nil => rfl
  | cons f fs ih => rw [chain_cons, map_add, LinearMap.add_apply, ih, chain_cons, chain_cons]

theorem chain_sub (fs : List (Factor β τ)) (u v : β →₀ ℤ) :
    chain fs (u - v) = chain fs u - chain fs v := by
  induction fs generalizing u v with
  | nil => rfl
  | cons f fs ih => rw [chain_cons, map_sub, LinearMap.sub_apply, ih, chain_cons, chain_cons]

@[simp] theorem chain_zero (fs : List (Factor β τ)) : chain fs (0 : β →₀ ℤ) = 0 := by
  induction fs with
  | nil => rfl
  | cons f fs ih => rw [chain_cons, map_zero, LinearMap.zero_apply, ih]

theorem chain_sum {α : Type*} (fs : List (Factor β τ)) (f : α → β →₀ ℤ) (l : List α) :
    chain fs (l.map f).sum = (l.map fun a => chain fs (f a)).sum := by
  induction l with
  | nil => exact chain_zero fs
  | cons a l ih => rw [map_cons, List.sum_cons, chain_add, ih, map_cons, List.sum_cons]

/-- A join of one key with the members of a list. -/
theorem join_single_indicator (step : β → τ → Option γ) (b : β) (l : List τ) :
    join step (single b 1) (indicator l) = (l.map fun t => point (step b t)).sum := by
  induction l with
  | nil => exact map_zero _
  | cons t l ih =>
    rw [indicator, map_cons, List.sum_cons, map_add, ← indicator, ih, join_single, one_mul,
      one_smul, map_cons, List.sum_cons]

/-- **Steps that commute may be joined in any order.** -/
theorem chain_perm {fs gs : List (Factor β τ)} (h : fs.Perm gs)
    (hcomm : ∀ f ∈ fs, ∀ g ∈ fs, ∀ b s t, (f.1 b s).bind (g.1 · t) = (g.1 b t).bind (f.1 · s))
    (u : β →₀ ℤ) : chain fs u = chain gs u :=
  h.foldl_eq' (fun f hf g hg v => join_join_comm (hcomm f hf g hg) v f.2 g.2) u

/-! ## The delta of a chain -/

/-- A step with its weighted set before and after a change, and what is taken for the change. -/
structure Change (β τ : Type*) where
  step : β → τ → Option β
  before : τ →₀ ℤ
  after : τ →₀ ℤ
  delta : τ →₀ ℤ

namespace Change

/-- The steps with the weighted sets before the change. -/
def olds (cs : List (Change β τ)) : List (Factor β τ) := cs.map fun c => (c.step, c.before)

/-- The factors of one pivot: new before it, the delta at it, old after it. -/
noncomputable def pivot : ℕ → List (Change β τ) → List (Factor β τ)
  | _, [] => []
  | 0, c :: cs => (c.step, c.delta) :: olds cs
  | p + 1, c :: cs => (c.step, c.after) :: pivot p cs

/-- The first factors new, the others old. -/
def mixed : ℕ → List (Change β τ) → List (Factor β τ)
  | _, [] => []
  | 0, c :: cs => olds (c :: cs)
  | p + 1, c :: cs => (c.step, c.after) :: mixed p cs

@[simp] theorem mixed_zero (cs : List (Change β τ)) : mixed 0 cs = olds cs := by
  cases cs <;> rfl

/-- **A pivot moves one factor from old to new**, if what is taken for its change is its change. -/
theorem chain_pivot : ∀ {p : ℕ} {cs : List (Change β τ)} {c : Change β τ} (u : β →₀ ℤ),
    cs[p]? = some c → c.delta = c.after - c.before →
      chain (pivot p cs) u = chain (mixed (p + 1) cs) u - chain (mixed p cs) u
  | 0, c' :: cs, c, u, hc, hdelta => by
    obtain rfl := Option.some.inj hc
    have hmixed : mixed 1 (c' :: cs) = (c'.step, c'.after) :: olds cs := by rw [mixed, mixed_zero]
    rw [pivot, chain_cons, hmixed, chain_cons, mixed_zero, hdelta, map_sub, chain_sub]
    rfl
  | p + 1, c' :: cs, c, u, hc, hdelta => by
    have hrest : cs[p]? = Option.some c := hc
    rw [pivot, chain_cons, chain_pivot _ hrest hdelta]
    rfl

/-- **The first pivots add up to the change of the first factors.** -/
theorem sum_chain_pivot {cs : List (Change β τ)} (hdelta : ∀ c ∈ cs, c.delta = c.after - c.before)
    (u : β →₀ ℤ) {n : ℕ} (h : n ≤ cs.length) :
    ((List.range n).map fun p => chain (pivot p cs) u).sum =
      chain (mixed n cs) u - chain (mixed 0 cs) u := by
  induction n with
  | zero => simp
  | succ n ih =>
    have hget : cs[n]? = some (cs.get ⟨n, h⟩) := getElem?_eq_getElem h
    rw [range_succ, map_append, sum_append, ih (Nat.le_of_succ_le h),
      map_singleton, sum_singleton,
      chain_pivot u hget (hdelta _ (mem_of_getElem? hget))]
    exact sub_add_sub_cancel' _ _ _

/-- A factor that did not change contributes no pivot. -/
theorem chain_pivot_of_delta_eq_zero : ∀ {p : ℕ} {cs : List (Change β τ)} {c : Change β τ}
    (u : β →₀ ℤ), cs[p]? = some c → c.delta = 0 → chain (pivot p cs) u = 0
  | 0, c' :: cs, c, u, hc, hzero => by
    obtain rfl := Option.some.inj hc
    rw [pivot, chain_cons, hzero, map_zero, chain_zero]
  | p + 1, c' :: cs, c, u, hc, hzero => by
    rw [pivot, chain_cons]
    exact chain_pivot_of_delta_eq_zero _ hc hzero

end Change

end Weighted
