import Mica.Kernel.RecursiveDelta

/-!
# Kernel/FrontierDelta — what a round of settling finds

A round takes the tuples of the frontier for the changes, although some of them may be rows already.
A derivation may then be counted more than once, but those that use a row of the frontier are counted
(`mem_frontierBindings`), nothing else than derivations is, and only signs matter.  The counts stay
below the number of atoms times the number of derivations, so a rule whose counts `Fits` never
overflows.
-/

open SortedList List

namespace Mica

/-- **The counts of a rule fit**, with room for counting a derivation once for each atom. -/
structure CompiledRule.Fits (rule : CompiledRule) (collections : Collections) : Prop where
  atoms : (rule.positiveAtoms.length : ℤ) ≤ maxDiff
  counts : ∀ head, ((rule.positiveAtoms.length + 1 : ℕ) * rule.derivationCount collections head : ℤ) ≤
    maxDiff

section Frontier

variable {rule : CompiledRule} {evaluation : DeltaEvaluation} {frontier : Collections}
  {collections collections' : Collections}

theorem CompiledRule.Fits.countsFit (h : rule.Fits collections) :
    rule.CountsFit (rule.derivations collections) := by
  intro head
  have hcount := h.counts head
  have hle : (rule.derivationCount collections head : ℤ) ≤
      (rule.positiveAtoms.length + 1 : ℕ) * rule.derivationCount collections head :=
    le_mul_of_one_le_left (Int.natCast_nonneg _) (by push_cast; omega)
  exact hle.trans hcount

/-- Some distinct derivations are no more than all of them. -/
theorem countP_le_of_subset {l m : List Binding} (hl : l.Nodup) (h : l ⊆ m) (p : Binding → Bool) :
    l.countP p ≤ m.countP p :=
  (hl.subperm h).countP_le p

/-- Fewer rows have smaller counts. -/
theorem CompiledRule.Fits.mono (h : rule.Fits collections') (hrows : rule.RowsFit collections)
    (hsub : ∀ atom ∈ rule.positiveAtoms, ∀ t ∈ collections atom.relation,
      t ∈ collections' atom.relation) : rule.Fits collections := by
  refine ⟨h.atoms, fun head => le_trans ?_ (h.counts head)⟩
  have hle := countP_le_of_subset (nodup_derivations hrows) (derivations_mono hsub)
    (rule.derives head)
  exact mul_le_mul_of_nonneg_left (Int.ofNat_le.mpr hle) (Int.natCast_nonneg _)

/-- **A round of growth**: the frontier moves into the rows and is taken for the changes. -/
structure DeltaEvaluation.Grows (evaluation : DeltaEvaluation) (frontier : Collections) : Prop where
  delta_eq : ∀ relation, evaluation.delta relation = signedRows 1 one_ne_zero (frontier relation)
  rows_iff : ∀ relation t, t ∈ evaluation.newCollections relation ↔
    t ∈ evaluation.oldCollections relation ∨ t ∈ frontier relation

/-- The rows of one pivot of a round. -/
def DeltaEvaluation.pivotFactors (evaluation : DeltaEvaluation) (frontier : Collections) :
    ℕ → List CompiledAtom → List (CompiledAtom × List Tuple)
  | _, [] => []
  | 0, atom :: atoms =>
    (atom, (frontier atom.relation).list) ::
      atoms.map fun atom => (atom, (evaluation.oldCollections atom.relation).list)
  | p + 1, atom :: atoms =>
    (atom, (evaluation.newCollections atom.relation).list) :: evaluation.pivotFactors frontier p atoms

theorem weights_signedRows_one (rows : Collection) :
    (signedRows 1 one_ne_zero rows).weights = rows.weights := by
  ext t
  rw [WeightedMap.weights_apply, weight_signedRows, Collection.weights_apply, Collection.presence]

theorem DeltaEvaluation.Grows.pivot_eq (h : evaluation.Grows frontier) :
    ∀ (p : ℕ) (atoms : List CompiledAtom),
      Weighted.Change.pivot p (atoms.map evaluation.change) =
        (evaluation.pivotFactors frontier p atoms).map
          fun factor => (unify factor.1, Weighted.indicator factor.2)
  | p, [] => by cases p <;> rfl
  | 0, atom :: atoms => by
    have hdelta : (evaluation.change atom).delta = (frontier atom.relation).weights := by
      change (evaluation.delta atom.relation).weights = _
      rw [h.delta_eq, weights_signedRows_one]
    rw [map_cons, Weighted.Change.pivot, hdelta, DeltaEvaluation.pivotFactors, map_cons,
      map_map, Weighted.Change.olds, map_map]
    rfl
  | p + 1, atom :: atoms => by
    rw [map_cons, Weighted.Change.pivot, h.pivot_eq p atoms, DeltaEvaluation.pivotFactors,
      map_cons]
    rfl

theorem DeltaEvaluation.map_fst_pivotFactors (evaluation : DeltaEvaluation) (frontier : Collections) :
    ∀ (p : ℕ) (atoms : List CompiledAtom),
      (evaluation.pivotFactors frontier p atoms).map Prod.fst = atoms
  | p, [] => by cases p <;> rfl
  | 0, atom :: atoms => by
    rw [DeltaEvaluation.pivotFactors, map_cons, map_map]
    exact congrArg _ (map_id _)
  | p + 1, atom :: atoms =>
    congrArg _ (evaluation.map_fst_pivotFactors frontier p atoms)

/-- The rows of a pivot are new rows. -/
theorem DeltaEvaluation.Grows.mem_new (h : evaluation.Grows frontier) {rows : List Tuple} :
    ∀ {p : ℕ} {atoms : List CompiledAtom},
      List.Forall₂ (fun factor t => t ∈ factor.2) (evaluation.pivotFactors frontier p atoms) rows →
      List.Forall₂ (fun atom t => t ∈ evaluation.newCollections atom.relation) atoms rows := by
  induction rows with
  | nil =>
    intro p atoms hrows
    have hnil : atoms.length = 0 := by
      rw [← evaluation.map_fst_pivotFactors frontier p atoms, length_map, hrows.length_eq]
      rfl
    rw [length_eq_zero_iff.mp hnil]
    exact .nil
  | cons t rows ih =>
    intro p atoms hrows
    cases atoms with
    | nil => cases p <;> exact nomatch hrows
    | cons atom atoms =>
      cases p with
      | zero =>
        obtain ⟨ht, hrest⟩ := forall₂_cons.mp hrows
        refine .cons ((h.rows_iff _ _).mpr (Or.inr ht)) ?_
        exact (forall₂_map_left_iff.mp hrest).imp fun _ _ hu =>
          (h.rows_iff _ _).mpr (Or.inl hu)
      | succ p =>
        obtain ⟨ht, hrest⟩ := forall₂_cons.mp hrows
        exact .cons ht (ih hrest)

/-- **Rows that use the frontier are the rows of a pivot**: the last one from the frontier. -/
theorem DeltaEvaluation.Grows.exists_pivot (h : evaluation.Grows frontier) :
    ∀ {atoms : List CompiledAtom} {rows : List Tuple},
      List.Forall₂ (fun atom t => t ∈ evaluation.newCollections atom.relation) atoms rows →
      (∃ g ∈ bodyFacts atoms rows, g ∈ factsOf frontier) →
      ∃ p < atoms.length, List.Forall₂ (fun factor t => t ∈ factor.2)
        (evaluation.pivotFactors frontier p atoms) rows
  | [], [], .nil, huse => by
    obtain ⟨g, hg, -⟩ := huse
    cases hg
  | atom :: atoms, t :: rows, .cons ht hrows, huse => by
    by_cases hlater : ∃ g ∈ bodyFacts atoms rows, g ∈ factsOf frontier
    · obtain ⟨p, hp, hfactors⟩ := h.exists_pivot hrows hlater
      exact ⟨p + 1, Nat.succ_lt_succ hp, .cons ht hfactors⟩
    refine ⟨0, Nat.succ_pos _, .cons ?_ ?_⟩
    · obtain ⟨g, hg, hfrontier⟩ := huse
      rcases mem_cons.mp hg with rfl | hg
      · exact hfrontier
      · exact absurd ⟨g, hg, hfrontier⟩ hlater
    refine forall₂_map_left_iff.mpr ?_
    have hnone : List.Forall₂ (fun atom t => (atom.relation, t) ∈ {g | g ∉ factsOf frontier})
        atoms rows := forall_bodyFacts.mp
      ⟨hrows.length_eq.symm, fun g hg hfrontier => hlater ⟨g, hg, hfrontier⟩⟩
    clear hlater huse ht
    induction hrows with
    | nil => exact .nil
    | cons hnew _ ih =>
      obtain ⟨hfirst, hrest⟩ := forall₂_cons.mp hnone
      exact .cons (((h.rows_iff _ _).mp hnew).resolve_right hfirst) (ih hrest)

/-- The bindings that a round counts, with repetitions. -/
def frontierBindings (rule : CompiledRule) (evaluation : DeltaEvaluation) (frontier : Collections) :
    List Binding :=
  ((List.range rule.positiveAtoms.length).flatMap fun p => bindingsOf (evaluation.pivotFactors frontier
    p (evaluation.orderedAtoms rule.positiveAtoms)) rule.slotCount).filter rule.guardsMatch

theorem DeltaEvaluation.Grows.pivotChain_eq (h : evaluation.Grows frontier) (n p : ℕ)
    (atoms : List CompiledAtom) : evaluation.pivotChain n p atoms =
      Weighted.indicator (bindingsOf (evaluation.pivotFactors frontier p atoms) n) := by
  rw [DeltaEvaluation.pivotChain, h.pivot_eq, ← factorChain_eq]
  rfl

theorem count_frontierBindings (h : evaluation.Grows frontier) (b : Binding) :
    ((frontierBindings rule evaluation frontier).count b : ℤ) = if rule.guardsMatch b = true then
      evaluation.pivotSum rule.slotCount rule.positiveAtoms.length
        (evaluation.orderedAtoms rule.positiveAtoms) b else 0 := by
  unfold frontierBindings
  split_ifs with hguards
  · have hsum : evaluation.pivotSum rule.slotCount rule.positiveAtoms.length
        (evaluation.orderedAtoms rule.positiveAtoms) = Weighted.indicator
          ((List.range rule.positiveAtoms.length).flatMap fun p =>
            bindingsOf (evaluation.pivotFactors frontier p
              (evaluation.orderedAtoms rule.positiveAtoms)) rule.slotCount) := by
      rw [Weighted.indicator_flatMap, DeltaEvaluation.pivotSum]
      exact congrArg List.sum (map_congr_left fun p _ => h.pivotChain_eq _ _ _)
    rw [count_filter hguards, hsum, Weighted.indicator_apply]
  · rw [count_eq_zero_of_not_mem fun hmem => hguards (of_mem_filter hmem), Nat.cast_zero]

theorem abs_pivotSum_le {atoms : List CompiledAtom} (h : evaluation.Readable atoms) (n : ℕ)
    (b : Binding) : ∀ p : ℕ, |evaluation.pivotSum n p atoms b| ≤ p
  | 0 => by simp [DeltaEvaluation.pivotSum]
  | p + 1 => by
    rw [evaluation.pivotSum_succ, Finsupp.add_apply]
    refine (abs_add_le _ _).trans ?_
    have hrest := abs_pivotSum_le h n b p
    have hone := h.abs_pivotChain_le n p b
    push_cast
    omega

/-- A round is counted without overflow. -/
theorem evaluatePositiveBindingDelta_grows (hreadable : evaluation.Readable rule.positiveAtoms)
    (h : evaluation.Grows frontier) (hatoms : (rule.positiveAtoms.length : ℤ) ≤ maxDiff) :
    ∃ bindings, evaluatePositiveBindingDelta rule evaluation = .ok bindings ∧
      ∀ b, bindings.weight b = ((frontierBindings rule evaluation frontier).count b : ℤ) -
        ([] : List Binding).count b := by
  have hordered := hreadable.perm (evaluation.orderedAtoms_perm rule.positiveAtoms)
  obtain ⟨bindings, hok, hweight⟩ := evaluatePositiveBindingDelta_pivots hreadable fun p hp b =>
    lt_of_le_of_lt (abs_pivotSum_le hordered rule.slotCount b p) (by omega)
  refine ⟨bindings, hok, fun b => ?_⟩
  rw [hweight b, count_frontierBindings h, count_nil, Nat.cast_zero, sub_zero]

theorem mem_derivations_of_pivot (h : evaluation.Grows frontier) {p : ℕ} {b : Binding}
    (hb : b ∈ bindingsOf (evaluation.pivotFactors frontier p
      (evaluation.orderedAtoms rule.positiveAtoms)) rule.slotCount)
    (hguards : rule.guardsMatch b = true) : b ∈ rule.derivations evaluation.newCollections := by
  obtain ⟨rows, hrows, hunify⟩ := mem_bindingsOf.mp hb
  rw [evaluation.map_fst_pivotFactors] at hunify
  have hnew := h.mem_new hrows
  obtain ⟨rows', hlen, hfacts, hsame⟩ := unifyAll_perm
    (evaluation.orderedAtoms_perm rule.positiveAtoms) hnew.length_eq.symm
  have hbody := (forall_bodyFacts (F := factsOf evaluation.newCollections)).mpr hnew
  refine mem_derivations.mpr ⟨⟨rows', ?_, (hsame _).trans hunify⟩, hguards⟩
  exact forall_bodyFacts.mp ⟨hlen, fun g hg => hbody.2 g (hfacts.subset hg)⟩

/-- A round counts derivations only. -/
theorem frontierBindings_subset (h : evaluation.Grows frontier) :
    frontierBindings rule evaluation frontier ⊆ rule.derivations evaluation.newCollections := by
  intro b hb
  obtain ⟨hmem, hguards⟩ := mem_filter.mp hb
  obtain ⟨p, -, hmem⟩ := mem_flatMap.mp hmem
  exact mem_derivations_of_pivot h hmem hguards

/-- **A round counts every derivation that uses the frontier.** -/
theorem mem_frontierBindings (h : evaluation.Grows frontier) {b : Binding} {rows : List Tuple}
    (hguards : rule.guardsMatch b = true)
    (hrows : List.Forall₂ (fun atom t => t ∈ evaluation.newCollections atom.relation)
      rule.positiveAtoms rows)
    (hunify : unifyAll rule.positiveAtoms rows (Binding.unbound rule.slotCount) = some b)
    (huse : ∃ g ∈ bodyFacts rule.positiveAtoms rows, g ∈ factsOf frontier) :
    b ∈ frontierBindings rule evaluation frontier := by
  have hperm := (evaluation.orderedAtoms_perm rule.positiveAtoms).symm
  obtain ⟨rows', hlen, hfacts, hsame⟩ := unifyAll_perm hperm hrows.length_eq.symm
  have hbody := (forall_bodyFacts (F := factsOf evaluation.newCollections)).mpr hrows
  have hrows' : List.Forall₂ (fun atom t => t ∈ evaluation.newCollections atom.relation)
      (evaluation.orderedAtoms rule.positiveAtoms) rows' :=
    forall_bodyFacts.mp ⟨hlen, fun g hg => hbody.2 g (hfacts.subset hg)⟩
  obtain ⟨g, hg, hfrontier⟩ := huse
  obtain ⟨p, hp, hfactors⟩ := h.exists_pivot hrows' ⟨g, hfacts.symm.subset hg, hfrontier⟩
  refine mem_filter.mpr ⟨mem_flatMap.mpr ⟨p, ?_, mem_bindingsOf.mpr ⟨rows', hfactors, ?_⟩⟩,
    hguards⟩
  · exact mem_range.mpr (hp.trans_eq hperm.length_eq.symm)
  · rwa [evaluation.map_fst_pivotFactors, hsame]

/-- The counts of a round fit. -/
theorem countsFit_frontierBindings (hreadable : evaluation.Readable rule.positiveAtoms)
    (h : evaluation.Grows frontier) (hfits : rule.Fits evaluation.newCollections) :
    rule.CountsFit (frontierBindings rule evaluation frontier) := by
  intro head
  have hordered := hreadable.perm (evaluation.orderedAtoms_perm rule.positiveAtoms)
  set pivots := fun p => bindingsOf (evaluation.pivotFactors frontier p
    (evaluation.orderedAtoms rule.positiveAtoms)) rule.slotCount with hpivots
  have hone : ∀ p, ((pivots p).filter rule.guardsMatch).countP (rule.derives head) ≤
      rule.derivationCount evaluation.newCollections head := by
    intro p
    refine countP_le_of_subset (List.Nodup.filter _ ?_) (fun b hb => ?_) _
    · refine nodup_iff_count_le_one.mpr fun b => ?_
      have hle := (le_abs_self _).trans (hordered.abs_pivotChain_le rule.slotCount p b)
      rw [h.pivotChain_eq, Weighted.indicator_apply] at hle
      exact_mod_cast hle
    · obtain ⟨hmem, hguards⟩ := mem_filter.mp hb
      exact mem_derivations_of_pivot h hmem hguards
  have hall : ∀ l : List ℕ, ((l.flatMap pivots).filter rule.guardsMatch).countP (rule.derives head) ≤
      l.length * rule.derivationCount evaluation.newCollections head := by
    intro l
    induction l with
    | nil => simp
    | cons p l ih =>
      rw [flatMap_cons, filter_append, countP_append, length_cons, Nat.succ_mul,
        add_comm]
      exact Nat.add_le_add ih (hone p)
  have hcount := hall (List.range rule.positiveAtoms.length)
  rw [length_range] at hcount
  refine le_trans ?_ (hfits.counts head)
  rw [← Nat.cast_mul, Nat.cast_le]
  exact hcount.trans (Nat.mul_le_mul_right _ (Nat.le_succ _))

end Frontier

end Mica
