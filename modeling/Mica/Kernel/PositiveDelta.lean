import Mica.Kernel.DeltaJoin

/-!
# Kernel/PositiveDelta — the change of the derivations of a rule

A **derivation** of a rule is a choice of one row for each positive atom that unifies and passes the
guards.  `evaluatePositiveBindingDelta` computes how many derivations a binding gains or loses from
the changes of the body relations alone: for each changed atom it joins the new rows of the atoms
before it, the changes of the atom and the old rows of the atoms after it.

* `evaluatePositiveBindingDelta_spec` — it always returns, and each weight is the number of new
  derivations of the binding less the number of old ones.
* `projectRule_spec` — the same for head tuples, when the counts fit the 64-bit weights.
-/

open SortedList List WeightedMap Weighted

namespace Mica

/-! ## Derivations -/

/-- The ways to choose one row from each list. -/
def rowChoices : List (List Tuple) → List (List Tuple)
  | [] => [[]]
  | rows :: rest => rows.flatMap fun t => (rowChoices rest).map fun chosen => t :: chosen

/-- Unify the atoms with the rows chosen for them. -/
def unifyAll : List CompiledAtom → List Tuple → Binding → Option Binding
  | atom :: atoms, t :: rows, binding => (unify atom binding t).bind (unifyAll atoms rows)
  | [], [], binding => some binding
  | _, _, _ => none

/-- The bindings of atoms with rows from their lists, one for each choice of rows. -/
def bindingsOf (factors : List (CompiledAtom × List Tuple)) (n : ℕ) : List Binding :=
  (rowChoices (factors.map Prod.snd)).filterMap fun rows =>
    unifyAll (factors.map Prod.fst) rows (Binding.unbound n)

namespace CompiledRule

/-- The bindings of the derivations of a rule, one for each choice of rows. -/
def derivations (rule : CompiledRule) (collections : Collections) : List Binding :=
  (bindingsOf (rule.positiveAtoms.map fun atom => (atom, (collections atom.relation).list))
    rule.slotCount).filter rule.guardsMatch

/-- A binding derives a head tuple. -/
def derives (rule : CompiledRule) (head : Tuple) (binding : Binding) : Bool :=
  (rule.instantiateHead binding).toOption == some head

/-- **The number of derivations of a head tuple.** -/
def derivationCount (rule : CompiledRule) (collections : Collections) (head : Tuple) : ℕ :=
  (rule.derivations collections).countP (rule.derives head)

end CompiledRule

/-! ## The code -/

structure DeltaEvaluation where
  oldCollections : Collections
  newCollections : Collections
  relationDeltas : RelationId → Option WeightedRows
  oldArrangements : Arrangements
  newArrangements : Arrangements
  oldTraces : Option (RelationId → Option Trace)
  target : RelationId
  version : ℕ
  context : ExecutionContext

/-- `filter_guards`. -/
def filterGuards (rule : CompiledRule) (bindings : WeightedBindings) : WeightedBindings :=
  bindings.retain rule.guardsMatch

/-- `min_by_key` over a list: the position of the first least element, with its key. -/
def minIndexBy {α : Type} (key : α → ℕ) : List α → Option (ℕ × ℕ)
  | [] => none
  | a :: l =>
    match minIndexBy key l with
    | none => some (0, key a)
    | some (i, k) => if key a ≤ k then some (0, key a) else some (i + 1, k)

namespace DeltaEvaluation

/-- The changes of a relation; a relation without an entry did not change. -/
def delta (evaluation : DeltaEvaluation) (relation : RelationId) : WeightedRows :=
  (evaluation.relationDeltas relation).getD WeightedMap.empty

/-- The number of changes that the order of the atoms goes by. -/
def deltaLength (evaluation : DeltaEvaluation) (atom : CompiledAtom) : ℕ :=
  match evaluation.relationDeltas atom.relation with
  | none => 2 ^ 64 - 1
  | some delta => delta.map.list.length

/-- The atoms with the least changed one first. -/
def orderedAtoms (evaluation : DeltaEvaluation) (atoms : List CompiledAtom) : List CompiledAtom :=
  match minIndexBy evaluation.deltaLength atoms with
  | none => atoms
  | some (first, _) =>
    match atoms[first]? with
    | none => atoms
    | some atom =>
      if (evaluation.delta atom.relation).isEmpty then atoms
      else atom :: atoms.eraseIdx first

/-- The new rows of an atom. -/
def newInput (evaluation : DeltaEvaluation) (atom : CompiledAtom) : FullJoinInput where
  rows := evaluation.newCollections atom.relation
  arrangements := evaluation.newArrangements
  trace := none
  target := evaluation.target
  version := evaluation.version
  context := evaluation.context

/-- The old rows of an atom. -/
def oldInput (evaluation : DeltaEvaluation) (atom : CompiledAtom) : FullJoinInput where
  rows := evaluation.oldCollections atom.relation
  arrangements := evaluation.oldArrangements
  trace := evaluation.oldTraces.bind fun traces => traces atom.relation
  target := evaluation.target
  version := evaluation.version
  context := evaluation.context

/-- One pivot: new rows before it, its changes, old rows after it; no bindings end it early. -/
def joinPivot (evaluation : DeltaEvaluation) (pivot : ℕ) :
    ℕ → List CompiledAtom → WeightedBindings → Except KernelError WeightedBindings
  | _, [], bindings => .ok bindings
  | index, atom :: atoms, bindings =>
    (if index < pivot then joinArranged bindings atom (evaluation.newInput atom)
      else if index = pivot then
        joinWeighted bindings atom (evaluation.delta atom.relation) evaluation.target
          evaluation.version
      else joinArranged bindings atom (evaluation.oldInput atom)).bind fun bindings =>
    if bindings.isEmpty then .ok bindings
    else joinPivot evaluation pivot (index + 1) atoms bindings

/-- The loop over the pivots. -/
def joinPivots (evaluation : DeltaEvaluation) (rule : CompiledRule) (atoms : List CompiledAtom) :
    List (CompiledAtom × ℕ) → WeightedBindings → Except KernelError WeightedBindings
  | [], output => .ok output
  | (atom, pivot) :: pivots, output =>
    if (evaluation.delta atom.relation).isEmpty then joinPivots evaluation rule atoms pivots output
    else
      (joinPivot evaluation pivot 0 atoms (unitBinding rule.slotCount)).bind fun bindings =>
        (accumulateAll ⟨evaluation.target, "delta union", evaluation.version⟩
          (filterGuards rule bindings).map.list output).bind
          (joinPivots evaluation rule atoms pivots)

end DeltaEvaluation

/-- `evaluate_positive_binding_delta`. -/
def evaluatePositiveBindingDelta (rule : CompiledRule) (evaluation : DeltaEvaluation) :
    Except KernelError WeightedBindings :=
  let atoms := evaluation.orderedAtoms rule.positiveAtoms
  evaluation.joinPivots rule atoms atoms.zipIdx WeightedMap.empty

/-- The loop of `project_rule`. -/
def projectBindings (rule : CompiledRule) (site : DiffSite) :
    List (Binding × ℤ) → WeightedRows → Except KernelError WeightedRows
  | [], output => .ok output
  | (binding, difference) :: rest, output =>
    (rule.instantiateHead binding).bind fun tuple =>
      (checkedAccumulate site output tuple difference).bind (projectBindings rule site rest)

/-- `project_rule`. -/
def projectRule (rule : CompiledRule) (bindings : WeightedBindings) (version : ℕ) :
    Except KernelError WeightedRows :=
  projectBindings rule ⟨rule.headRelation, "projection", version⟩ bindings.map.list
    WeightedMap.empty

/-- `evaluate_rule_delta`. -/
def evaluateRuleDelta (rule : CompiledRule) (evaluation : DeltaEvaluation) :
    Except KernelError WeightedRows :=
  (evaluatePositiveBindingDelta rule evaluation).bind fun bindings =>
    projectRule rule bindings evaluation.version

/-! ## One pivot -/

/-- **A readable evaluation for some atoms**: what is kept for their relations shows their old and
new rows, and every difference is one. -/
structure DeltaEvaluation.Readable (evaluation : DeltaEvaluation) (atoms : List CompiledAtom) :
    Prop where
  old : ∀ atom ∈ atoms, (evaluation.oldInput atom).Exact atom
  new : ∀ atom ∈ atoms, (evaluation.newInput atom).Exact atom
  unit : ∀ atom ∈ atoms, UnitRows atom.terms.length (evaluation.delta atom.relation).map.list

/-- **A consistent evaluation for some atoms**: also, the differences are the changes. -/
structure DeltaEvaluation.Consistent (evaluation : DeltaEvaluation) (atoms : List CompiledAtom) :
    Prop where
  old : ∀ atom ∈ atoms, (evaluation.oldInput atom).Exact atom
  new : ∀ atom ∈ atoms, (evaluation.newInput atom).Exact atom
  changes : ∀ atom ∈ atoms, Changes (evaluation.oldCollections atom.relation)
    (evaluation.newCollections atom.relation) (evaluation.delta atom.relation)

variable {evaluation : DeltaEvaluation}

theorem DeltaEvaluation.Consistent.readable
    {atoms : List CompiledAtom} (h : evaluation.Consistent atoms) : evaluation.Readable atoms where
  old := h.old
  new := h.new
  unit atom hatom :=
    (h.changes atom hatom).unitRows (h.old atom hatom).length_eq (h.new atom hatom).length_eq

/-- The slots that some atoms name. -/
def bodySlots (atoms : List CompiledAtom) : Set ℕ := {slot | ∃ atom ∈ atoms, slot ∈ atom.slots}

theorem bodySlots_cons (atom : CompiledAtom) (atoms : List CompiledAtom) :
    bodySlots (atom :: atoms) = {slot | slot ∈ atom.slots} ∪ bodySlots atoms := by
  ext slot
  simp [bodySlots]

/-- The product of lists of rows for atoms. -/
noncomputable def factorChain (factors : List (CompiledAtom × List Tuple)) (n : ℕ) :
    Binding →₀ ℤ :=
  Weighted.chain (factors.map fun factor => (unify factor.1, Weighted.indicator factor.2))
    (Finsupp.single (Binding.unbound n) 1)

/-- The product of the rows of atoms. -/
noncomputable def bodyChain (atoms : List CompiledAtom) (collections : Collections) (n : ℕ) :
    Binding →₀ ℤ :=
  factorChain (atoms.map fun atom => (atom, (collections atom.relation).list)) n

theorem bodyChain_eq (atoms : List CompiledAtom) (collections : Collections) (n : ℕ) :
    bodyChain atoms collections n =
      Weighted.chain (atoms.map fun atom => (unify atom, (collections atom.relation).weights))
        (Finsupp.single (Binding.unbound n) 1) := by
  rw [bodyChain, factorChain, map_map]
  rfl

theorem weights_unitBinding (n : ℕ) :
    (unitBinding n).weights = Finsupp.single (Binding.unbound n) 1 := by
  ext b
  rw [weights_apply, unitBinding, weight_set, Finsupp.single_apply]
  simp [eq_comm]

section Pivot

variable {evaluation : DeltaEvaluation} {atoms : List CompiledAtom} {slots : Set ℕ} {n : ℕ}
  {bindings : WeightedBindings}

theorem aligned_of_isEmpty (slots : Set ℕ) (n : ℕ) (h : bindings.isEmpty = true) :
    Aligned slots n bindings := by
  have hzero := WeightedMap.isEmpty_iff.mp h
  exact ⟨fun b hb => absurd (hzero b) hb, fun b hb => absurd (hzero b) hb,
    fun b => by rw [hzero b, abs_zero]; exact zero_le_one⟩

/-- The atoms of an evaluation with their rows before and after. -/
noncomputable def DeltaEvaluation.change (evaluation : DeltaEvaluation) (atom : CompiledAtom) :
    Weighted.Change Binding Tuple where
  step := unify atom
  before := (evaluation.oldCollections atom.relation).weights
  after := (evaluation.newCollections atom.relation).weights
  delta := (evaluation.delta atom.relation).weights

/-- What a pivot computes from some bindings on. -/
def DeltaEvaluation.Joins (evaluation : DeltaEvaluation) (pivot index : ℕ)
    (atoms : List CompiledAtom) (slots : Set ℕ) (n : ℕ)
    (factors : List (Weighted.Factor Binding Tuple)) : Prop :=
  ∀ bindings, Aligned slots n bindings → ∃ out,
    evaluation.joinPivot pivot index atoms bindings = .ok out ∧
      out.weights = Weighted.chain factors bindings.weights ∧ Aligned (slots ∪ bodySlots atoms) n out

/-- One atom, then the others; with no bindings left, the others are not tried. -/
theorem DeltaEvaluation.Joins.cons {pivot index : ℕ} {atom : CompiledAtom}
    {factors : List (Weighted.Factor Binding Tuple)} {rows : List (Tuple × ℤ)}
    (hrows : UnitRows atom.terms.length rows)
    (hfirst : ∀ bindings, Aligned slots n bindings → ∃ out,
      (if index < pivot then joinArranged bindings atom (evaluation.newInput atom)
        else if index = pivot then
          joinWeighted bindings atom (evaluation.delta atom.relation) evaluation.target
            evaluation.version
        else joinArranged bindings atom (evaluation.oldInput atom)) = .ok out ∧
      out.weights = Weighted.join (unify atom) bindings.weights (Weighted.entries rows))
    (hrest : evaluation.Joins pivot (index + 1) atoms (slots ∪ {slot | slot ∈ atom.slots}) n
      factors) :
    evaluation.Joins pivot index (atom :: atoms) slots n
      ((unify atom, Weighted.entries rows) :: factors) := by
  intro bindings haligned
  obtain ⟨first, hok, hweights⟩ := hfirst bindings haligned
  have hjoined := haligned.join hrows hweights
  rw [DeltaEvaluation.joinPivot, hok, bodySlots_cons, ← Set.union_assoc, Weighted.chain_cons,
    ← hweights]
  change ∃ out, (if first.isEmpty = true then Except.ok first
    else evaluation.joinPivot pivot (index + 1) atoms first) = _ ∧ _
  by_cases hempty : first.isEmpty = true
  · rw [if_pos hempty]
    refine ⟨first, rfl, ?_, aligned_of_isEmpty _ _ hempty⟩
    rw [eq_empty_of_isEmpty hempty, weights_empty, chain_zero]
  · rw [if_neg hempty]
    exact hrest first hjoined

theorem DeltaEvaluation.Joins.nil (pivot index : ℕ) : evaluation.Joins pivot index [] slots n [] := by
  intro bindings haligned
  refine ⟨bindings, rfl, rfl, ?_⟩
  have hnone : bodySlots [] = ∅ := Set.eq_empty_of_forall_notMem fun slot ⟨atom, h, _⟩ => nomatch h
  rwa [hnone, Set.union_empty]

theorem DeltaEvaluation.Readable.tail {atom : CompiledAtom}
    (h : evaluation.Readable (atom :: atoms)) : evaluation.Readable atoms :=
  ⟨fun a ha => h.old a (.tail _ ha), fun a ha => h.new a (.tail _ ha),
    fun a ha => h.unit a (.tail _ ha)⟩

/-- After the pivot all rows are old. -/
theorem DeltaEvaluation.Readable.joins_olds (h : evaluation.Readable atoms) {pivot index : ℕ}
    (hindex : pivot < index) (slots : Set ℕ) :
    evaluation.Joins pivot index atoms slots n
      (Weighted.Change.olds (atoms.map evaluation.change)) := by
  induction atoms generalizing index slots with
  | nil => exact .nil pivot index
  | cons atom atoms ih =>
    have hinput := h.old atom mem_cons_self
    have hjoins : evaluation.Joins pivot index (atom :: atoms) slots n
        ((unify atom, Weighted.entries (evaluation.oldInput atom).rows.entries) ::
          Weighted.Change.olds (atoms.map evaluation.change)) := by
      refine .cons (Collection.unitRows hinput.length_eq) (fun bindings haligned => ?_)
        (ih h.tail (hindex.trans (Nat.lt_succ_self _)) _)
      rw [if_neg hindex.not_gt, if_neg hindex.ne', Collection.weights_eq]
      exact joinArranged_spec haligned hinput
    rwa [Collection.weights_eq] at hjoins

/-- **One pivot**: new rows before it, its changes, old rows after it. -/
theorem DeltaEvaluation.Readable.joins_pivot (h : evaluation.Readable atoms) {pivot index : ℕ}
    (hindex : index ≤ pivot) (slots : Set ℕ) :
    evaluation.Joins pivot index atoms slots n
      (Weighted.Change.pivot (pivot - index) (atoms.map evaluation.change)) := by
  induction atoms generalizing index slots with
  | nil =>
    rw [map_nil, Weighted.Change.pivot]
    exact .nil pivot index
  | cons atom atoms ih =>
    have hnew := h.new atom mem_cons_self
    rcases hindex.eq_or_lt with rfl | hlt
    · have hrows := h.unit atom mem_cons_self
      have hjoins : evaluation.Joins index index (atom :: atoms) slots n
          ((unify atom, (evaluation.delta atom.relation).weights) ::
            Weighted.Change.olds (atoms.map evaluation.change)) := by
        refine .cons hrows (fun bindings haligned => ?_) (h.tail.joins_olds (Nat.lt_succ_self _) _)
        rw [if_neg (lt_irrefl _), if_pos rfl]
        exact joinWeighted_spec haligned hrows _ _
      rwa [Nat.sub_self, map_cons, Weighted.Change.pivot]
    · have hjoins : evaluation.Joins pivot index (atom :: atoms) slots n
          ((unify atom, Weighted.entries (evaluation.newInput atom).rows.entries) ::
            Weighted.Change.pivot (pivot - (index + 1)) (atoms.map evaluation.change)) := by
        refine .cons (Collection.unitRows hnew.length_eq) (fun bindings haligned => ?_)
          (ih h.tail hlt _)
        rw [if_pos hlt, Collection.weights_eq]
        exact joinArranged_spec haligned hnew
      obtain ⟨p, hp⟩ : ∃ p, pivot - index = p + 1 := ⟨pivot - index - 1, by omega⟩
      have hp' : pivot - (index + 1) = p := by omega
      rw [Collection.weights_eq, hp'] at hjoins
      rwa [hp, map_cons, Weighted.Change.pivot]

end Pivot

/-! ## All pivots -/

section Pivots

variable {evaluation : DeltaEvaluation} {atoms : List CompiledAtom}

/-- One pivot of an evaluation. -/
noncomputable def DeltaEvaluation.pivotChain (evaluation : DeltaEvaluation) (n p : ℕ)
    (atoms : List CompiledAtom) : Binding →₀ ℤ :=
  Weighted.chain (Weighted.Change.pivot p (atoms.map evaluation.change))
    (Finsupp.single (Binding.unbound n) 1)

/-- The first pivots of an evaluation. -/
noncomputable def DeltaEvaluation.pivotSum (evaluation : DeltaEvaluation) (n p : ℕ)
    (atoms : List CompiledAtom) : Binding →₀ ℤ :=
  ((List.range p).map fun q => evaluation.pivotChain n q atoms).sum

theorem DeltaEvaluation.pivotSum_succ (evaluation : DeltaEvaluation) (n p : ℕ)
    (atoms : List CompiledAtom) : evaluation.pivotSum n (p + 1) atoms =
      evaluation.pivotSum n p atoms + evaluation.pivotChain n p atoms := by
  rw [DeltaEvaluation.pivotSum, range_succ, map_append, sum_append,
    map_singleton, sum_singleton, DeltaEvaluation.pivotSum]

/-- A pivot is computed, and keeps its weights at one. -/
theorem DeltaEvaluation.Readable.joinPivot_spec (h : evaluation.Readable atoms) (n p : ℕ) :
    ∃ bindings, evaluation.joinPivot p 0 atoms (unitBinding n) = .ok bindings ∧
      bindings.weights = evaluation.pivotChain n p atoms ∧ ∀ b, |bindings.weight b| ≤ 1 := by
  obtain ⟨bindings, hok, hweights, haligned⟩ := h.joins_pivot p.zero_le ∅ _ (aligned_unitBinding n)
  rw [Nat.sub_zero, weights_unitBinding] at hweights
  exact ⟨bindings, hok, hweights, haligned.unit⟩

theorem DeltaEvaluation.Readable.abs_pivotChain_le (h : evaluation.Readable atoms) (n p : ℕ)
    (b : Binding) : |evaluation.pivotChain n p atoms b| ≤ 1 := by
  obtain ⟨bindings, -, hweights, hunit⟩ := h.joinPivot_spec n p
  rw [← hweights, weights_apply]
  exact hunit b

/-- What the loop has gathered before pivot `p`. -/
def DeltaEvaluation.Gathered (evaluation : DeltaEvaluation) (rule : CompiledRule)
    (atoms : List CompiledAtom) (p : ℕ) (output : WeightedBindings) : Prop :=
  ∀ b, output.weight b =
    if rule.guardsMatch b = true then evaluation.pivotSum rule.slotCount p atoms b else 0

/-- A step of the loop adds a pivot, if the sum leaves room. -/
theorem DeltaEvaluation.Gathered.step (h : evaluation.Readable atoms) {rule : CompiledRule} {p : ℕ}
    (hroom : ∀ b, |evaluation.pivotSum rule.slotCount p atoms b| < maxDiff)
    {output : WeightedBindings} (hgathered : evaluation.Gathered rule atoms p output) :
    ∃ bindings out, evaluation.joinPivot p 0 atoms (unitBinding rule.slotCount) = .ok bindings ∧
      accumulateAll ⟨evaluation.target, "delta union", evaluation.version⟩
        (filterGuards rule bindings).map.list output = .ok out ∧
      evaluation.Gathered rule atoms (p + 1) out := by
  obtain ⟨bindings, hok, hweights, hunit⟩ := h.joinPivot_spec rule.slotCount p
  have hentry : ∀ b, (filterGuards rule bindings).weight b =
      if rule.guardsMatch b = true then evaluation.pivotChain rule.slotCount p atoms b else 0 := by
    intro b
    rw [filterGuards, weight_retain, ← weights_apply, hweights]
  refine ⟨bindings, output.addAll (filterGuards rule bindings).map.list, hok,
    accumulateAll_ok_of_nodup (filterGuards rule bindings).nodup_keys fun e he => ?_, fun b => ?_⟩
  · refine fitsDiff_of_abs_le ((abs_add_le _ _).trans ?_)
    have hout : |output.weight e.1| < maxDiff := by
      rw [hgathered e.1]
      split_ifs
      · exact hroom e.1
      · decide
    have hone : |e.2| ≤ 1 := by
      rw [← (mem_list.mp he).1, filterGuards, weight_retain]
      split_ifs
      · exact hunit e.1
      · norm_num
    omega
  · have hsum : (output.addAll (filterGuards rule bindings).map.list).weight b =
        output.weight b + (filterGuards rule bindings).weight b := by
      rw [← weights_apply, weights_addAll, Finsupp.add_apply,
        weights_apply, ← weights_apply (filterGuards rule bindings)]
      rfl
    rw [hsum, hgathered b, hentry b, evaluation.pivotSum_succ, Finsupp.add_apply]
    split_ifs
    · rfl
    · exact add_zero 0

/-- An atom that did not change is passed over. -/
theorem DeltaEvaluation.Gathered.skip {rule : CompiledRule} {p : ℕ}
    {atom : CompiledAtom} (hatom : atoms[p]? = some atom)
    (hempty : (evaluation.delta atom.relation).isEmpty = true) {output : WeightedBindings}
    (hgathered : evaluation.Gathered rule atoms p output) :
    evaluation.Gathered rule atoms (p + 1) output := by
  intro b
  have hzero : (evaluation.change atom).delta = 0 := by
    change (evaluation.delta atom.relation).weights = 0
    rw [eq_empty_of_isEmpty hempty, weights_empty]
  have hget : (atoms.map evaluation.change)[p]? = some (evaluation.change atom) := by
    rw [getElem?_map, hatom, Option.map_some]
  have hnone : evaluation.pivotChain rule.slotCount p atoms = 0 :=
    Weighted.Change.chain_pivot_of_delta_eq_zero _ hget hzero
  rw [hgathered b, evaluation.pivotSum_succ, hnone, add_zero]

/-- **The loop gathers the pivots.** -/
theorem DeltaEvaluation.joinPivots_spec (h : evaluation.Readable atoms) (rule : CompiledRule)
    (hroom : ∀ p < atoms.length, ∀ b, |evaluation.pivotSum rule.slotCount p atoms b| < maxDiff) :
    ∀ (rest : List CompiledAtom) (p : ℕ) (output : WeightedBindings), atoms.drop p = rest →
      evaluation.Gathered rule atoms p output →
      ∃ out, evaluation.joinPivots rule atoms (rest.zipIdx p) output = .ok out ∧
        evaluation.Gathered rule atoms (p + rest.length) out
  | [], p, output, _, hgathered => ⟨output, rfl, hgathered⟩
  | atom :: rest, p, output, hdrop, hgathered => by
    have hatom : atoms[p]? = some atom := by
      rw [← head?_drop, hdrop]
      rfl
    have hrest : atoms.drop (p + 1) = rest := by
      rw [← tail_drop, hdrop]
      rfl
    have hlength : p + (rest.length + 1) = p + 1 + rest.length := by omega
    rw [zipIdx_cons, DeltaEvaluation.joinPivots, length_cons, hlength]
    by_cases hempty : (evaluation.delta atom.relation).isEmpty = true
    · rw [if_pos hempty]
      exact DeltaEvaluation.joinPivots_spec h rule hroom rest (p + 1) output hrest
        (hgathered.skip hatom hempty)
    rw [if_neg hempty]
    obtain ⟨bindings, out, hjoin, hout, hnext⟩ :=
      hgathered.step h (hroom p (List.getElem?_eq_some_iff.mp hatom).1)
    rw [hjoin]
    change ∃ result, (accumulateAll _ (filterGuards rule bindings).map.list output).bind
      (evaluation.joinPivots rule atoms (rest.zipIdx (p + 1))) = _ ∧ _
    rw [hout]
    exact DeltaEvaluation.joinPivots_spec h rule hroom rest (p + 1) out hrest hnext

/-! ## Products of lists of rows -/

/-- Lists of distinct rows of the arity of their atoms. -/
def FactorsValid (factors : List (CompiledAtom × List Tuple)) : Prop :=
  ∀ factor ∈ factors, factor.2.Nodup ∧ ∀ t ∈ factor.2, t.length = factor.1.terms.length

theorem unitRows_indicator {atom : CompiledAtom} {rows : List Tuple} (hnodup : rows.Nodup)
    (hlength : ∀ t ∈ rows, t.length = atom.terms.length) :
    UnitRows atom.terms.length (rows.map fun t => (t, 1)) where
  nodup := by
    rw [map_map]
    exact (map_id _).symm ▸ hnodup
  unit row hrow := by
    obtain ⟨t, -, rfl⟩ := mem_map.mp hrow
    exact abs_one.le
  length_eq row hrow := by
    obtain ⟨t, ht, rfl⟩ := mem_map.mp hrow
    exact hlength t ht

/-- Products of rows keep their weights at one. -/
theorem exists_aligned_chain {n : ℕ} {slots : Set ℕ} {bindings : WeightedBindings}
    (haligned : Aligned slots n bindings) : ∀ {factors : List (CompiledAtom × List Tuple)},
      FactorsValid factors → ∃ slots' out, Aligned slots' n out ∧ out.weights =
        Weighted.chain (factors.map fun factor => (unify factor.1, Weighted.indicator factor.2))
          bindings.weights
  | [], _ => ⟨slots, bindings, haligned, rfl⟩
  | (atom, rows) :: factors, h => by
    obtain ⟨hrows, hrest⟩ := forall_mem_cons.mp h
    set joined := WeightedMap.empty.addAll
      (Weighted.pairEntries (unify atom) bindings.map.list (rows.map fun t => (t, 1))) with hjoined
    have hweights : joined.weights = Weighted.join (unify atom) bindings.weights
        (Weighted.entries (rows.map fun t => (t, 1))) := by
      rw [hjoined, weights_addAll, weights_empty, zero_add,
        entries_pairEntries]
      rfl
    have hnext := haligned.join (unitRows_indicator hrows.1 hrows.2) hweights
    obtain ⟨slots', out, hout, heq⟩ := exists_aligned_chain hnext hrest
    refine ⟨slots', out, hout, ?_⟩
    rw [heq, hweights, ← indicator_eq]
    rfl

theorem abs_factorChain_le {factors : List (CompiledAtom × List Tuple)} (h : FactorsValid factors)
    (n : ℕ) (b : Binding) : |factorChain factors n b| ≤ 1 := by
  obtain ⟨slots, out, hout, heq⟩ := exists_aligned_chain (aligned_unitBinding n) h
  rw [factorChain, ← weights_unitBinding, ← heq, weights_apply]
  exact hout.unit b

/-- The atoms with the new rows for the first of them. -/
def DeltaEvaluation.mixedFactors (evaluation : DeltaEvaluation) :
    ℕ → List CompiledAtom → List (CompiledAtom × List Tuple)
  | _, [] => []
  | 0, atom :: atoms =>
    (atom, (evaluation.oldCollections atom.relation).list) :: evaluation.mixedFactors 0 atoms
  | p + 1, atom :: atoms =>
    (atom, (evaluation.newCollections atom.relation).list) :: evaluation.mixedFactors p atoms

theorem DeltaEvaluation.mixed_eq (evaluation : DeltaEvaluation) :
    ∀ (p : ℕ) (atoms : List CompiledAtom),
      Weighted.Change.mixed p (atoms.map evaluation.change) = (evaluation.mixedFactors p atoms).map
        fun factor => (unify factor.1, Weighted.indicator factor.2)
  | p, [] => by cases p <;> rfl
  | 0, atom :: atoms => by
    rw [DeltaEvaluation.mixedFactors, map_cons, map_cons, ← evaluation.mixed_eq 0 atoms,
      Weighted.Change.mixed_zero, Weighted.Change.mixed_zero]
    rfl
  | p + 1, atom :: atoms => by
    rw [DeltaEvaluation.mixedFactors, map_cons, map_cons, ← evaluation.mixed_eq p atoms,
      Weighted.Change.mixed]
    rfl

theorem DeltaEvaluation.Readable.mixedFactors (h : evaluation.Readable atoms) (p : ℕ) :
    FactorsValid (evaluation.mixedFactors p atoms) := by
  have hvalid : ∀ {atom : CompiledAtom} {rows : Collection},
      (∀ t ∈ rows, t.length = atom.terms.length) → rows.list.Nodup ∧
        ∀ t ∈ rows.list, t.length = atom.terms.length := fun {_ rows} hlength =>
    ⟨rows.sorted.imp ne_of_lt, hlength⟩
  induction atoms generalizing p with
  | nil => cases p <;> exact nofun
  | cons atom atoms ih =>
    cases p with
    | zero =>
      exact forall_mem_cons.mpr
        ⟨hvalid (h.old atom mem_cons_self).length_eq, ih h.tail 0⟩
    | succ p =>
      exact forall_mem_cons.mpr
        ⟨hvalid (h.new atom mem_cons_self).length_eq, ih h.tail p⟩

/-- The product with the new rows for the first `p` atoms. -/
noncomputable def DeltaEvaluation.mixed (evaluation : DeltaEvaluation) (n p : ℕ)
    (atoms : List CompiledAtom) : Binding →₀ ℤ := factorChain (evaluation.mixedFactors p atoms) n

/-- With differences that are changes, the pivots add up to a change of the product. -/
theorem DeltaEvaluation.Consistent.pivotSum_eq (h : evaluation.Consistent atoms) (n : ℕ) {p : ℕ}
    (hp : p ≤ atoms.length) : evaluation.pivotSum n p atoms =
      evaluation.mixed n p atoms - evaluation.mixed n 0 atoms := by
  rw [DeltaEvaluation.mixed, DeltaEvaluation.mixed, factorChain, factorChain, ← evaluation.mixed_eq,
    ← evaluation.mixed_eq]
  refine Weighted.Change.sum_chain_pivot (fun c hc => ?_) _ (by rwa [length_map])
  obtain ⟨atom, hatom, rfl⟩ := mem_map.mp hc
  exact (h.changes atom hatom).weights_eq

end Pivots

/-! ## Derivations and products -/

/-- **A product of rows counts the choices of rows that unify.** -/
theorem chain_single : ∀ (factors : List (CompiledAtom × List Tuple)) (b : Binding),
    Weighted.chain (factors.map fun factor => (unify factor.1, Weighted.indicator factor.2))
        (Finsupp.single b 1) =
      Weighted.indicator ((rowChoices (factors.map Prod.snd)).filterMap fun rows =>
        unifyAll (factors.map Prod.fst) rows b)
  | [], b => by
    simp only [map_nil, rowChoices]
    exact (sum_singleton).symm
  | (atom, rows) :: factors, b => by
    have hrest : ∀ o : Option Binding,
        Weighted.chain (factors.map fun factor => (unify factor.1, Weighted.indicator factor.2))
            (Weighted.point o) =
          Weighted.indicator ((rowChoices (factors.map Prod.snd)).filterMap fun rows =>
            o.bind (unifyAll (factors.map Prod.fst) rows)) := by
      intro o
      cases o with
      | none => simp [Weighted.indicator]
      | some c => exact chain_single factors c
    rw [map_cons, Weighted.chain_cons, Weighted.join_single_indicator, Weighted.chain_sum,
      map_cons, map_cons, rowChoices, filterMap_flatMap, Weighted.indicator_flatMap]
    refine congrArg List.sum (map_congr_left fun t _ => ?_)
    rw [hrest, filterMap_map]
    rfl

theorem factorChain_eq (factors : List (CompiledAtom × List Tuple)) (n : ℕ) :
    factorChain factors n = Weighted.indicator (bindingsOf factors n) :=
  chain_single factors (Binding.unbound n)

/-- The order of the atoms does not matter. -/
theorem bodyChain_perm {atoms atoms' : List CompiledAtom} (h : atoms.Perm atoms')
    (collections : Collections) (n : ℕ) :
    bodyChain atoms collections n = bodyChain atoms' collections n := by
  refine chain_perm ((h.map _).map _) (fun f hf g hg b s t => ?_) _
  obtain ⟨factor, -, rfl⟩ := mem_map.mp hf
  obtain ⟨factor', -, rfl⟩ := mem_map.mp hg
  exact unify_comm factor.1 factor'.1 b s t

theorem CompiledRule.count_derivations (rule : CompiledRule) (collections : Collections)
    (b : Binding) :
    ((rule.derivations collections).count b : ℤ) = if rule.guardsMatch b = true then
      bodyChain rule.positiveAtoms collections rule.slotCount b else 0 := by
  rw [bodyChain, factorChain_eq, indicator_apply, CompiledRule.derivations]
  split_ifs with h
  · rw [count_filter h]
  · rw [count_eq_zero_of_not_mem fun hmem => h (of_mem_filter hmem), Nat.cast_zero]

theorem DeltaEvaluation.orderedAtoms_perm (evaluation : DeltaEvaluation)
    (atoms : List CompiledAtom) : (evaluation.orderedAtoms atoms).Perm atoms := by
  unfold DeltaEvaluation.orderedAtoms
  split
  · exact .refl _
  rename_i first k hfirst
  split
  · exact .refl _
  rename_i atom hatom
  split_ifs
  · exact .refl _
  · obtain ⟨hlt, rfl⟩ := List.getElem?_eq_some_iff.mp hatom
    exact getElem_cons_eraseIdx_perm hlt

theorem DeltaEvaluation.Readable.perm
    {atoms atoms' : List CompiledAtom} (h : evaluation.Readable atoms) (hperm : atoms'.Perm atoms) :
    evaluation.Readable atoms' :=
  ⟨fun a ha => h.old a (hperm.subset ha), fun a ha => h.new a (hperm.subset ha),
    fun a ha => h.unit a (hperm.subset ha)⟩

theorem DeltaEvaluation.Consistent.perm
    {atoms atoms' : List CompiledAtom} (h : evaluation.Consistent atoms) (hperm : atoms'.Perm atoms) :
    evaluation.Consistent atoms' :=
  ⟨fun a ha => h.old a (hperm.subset ha), fun a ha => h.new a (hperm.subset ha),
    fun a ha => h.changes a (hperm.subset ha)⟩

theorem DeltaEvaluation.mixedFactors_zero (evaluation : DeltaEvaluation) :
    ∀ atoms : List CompiledAtom, evaluation.mixedFactors 0 atoms =
      atoms.map fun atom => (atom, (evaluation.oldCollections atom.relation).list)
  | [] => rfl
  | _ :: atoms => congrArg _ (evaluation.mixedFactors_zero atoms)

theorem DeltaEvaluation.mixedFactors_length (evaluation : DeltaEvaluation) :
    ∀ atoms : List CompiledAtom, evaluation.mixedFactors atoms.length atoms =
      atoms.map fun atom => (atom, (evaluation.newCollections atom.relation).list)
  | [] => rfl
  | _ :: atoms => congrArg _ (evaluation.mixedFactors_length atoms)

variable {rule : CompiledRule}

/-- The loop over the pivots, whatever is taken for the changes. -/
theorem evaluatePositiveBindingDelta_pivots (h : evaluation.Readable rule.positiveAtoms)
    (hroom : ∀ p < rule.positiveAtoms.length, ∀ b, |evaluation.pivotSum rule.slotCount p
      (evaluation.orderedAtoms rule.positiveAtoms) b| < maxDiff) :
    ∃ delta, evaluatePositiveBindingDelta rule evaluation = .ok delta ∧
      ∀ b, delta.weight b = if rule.guardsMatch b = true then
        evaluation.pivotSum rule.slotCount rule.positiveAtoms.length
          (evaluation.orderedAtoms rule.positiveAtoms) b else 0 := by
  have hperm := evaluation.orderedAtoms_perm rule.positiveAtoms
  rw [← hperm.length_eq] at hroom ⊢
  set atoms := evaluation.orderedAtoms rule.positiveAtoms with hatoms
  have hstart : evaluation.Gathered rule atoms 0 WeightedMap.empty := fun b => (ite_self _).symm
  obtain ⟨delta, hok, hgathered⟩ := DeltaEvaluation.joinPivots_spec (h.perm hperm) rule hroom atoms 0
    WeightedMap.empty rfl hstart
  rw [Nat.zero_add] at hgathered
  exact ⟨delta, hok, hgathered⟩

/-- **The change of the derivations.**  The evaluation always returns, and the weight of a binding
is the number of its new derivations less the number of its old ones. -/
theorem evaluatePositiveBindingDelta_spec (h : evaluation.Consistent rule.positiveAtoms) :
    ∃ delta, evaluatePositiveBindingDelta rule evaluation = .ok delta ∧
      ∀ b, delta.weight b = ((rule.derivations evaluation.newCollections).count b : ℤ) -
        (rule.derivations evaluation.oldCollections).count b := by
  have hperm := evaluation.orderedAtoms_perm rule.positiveAtoms
  have hordered := h.perm hperm
  have hlength := hperm.length_eq
  obtain ⟨delta, hok, hdelta⟩ := evaluatePositiveBindingDelta_pivots h.readable fun p hp b => by
    rw [hordered.pivotSum_eq _ (hp.le.trans_eq hlength.symm), Finsupp.sub_apply]
    have hnew := abs_factorChain_le (hordered.readable.mixedFactors p) rule.slotCount b
    have hold := abs_factorChain_le (hordered.readable.mixedFactors 0) rule.slotCount b
    refine (abs_sub _ _).trans_lt ((add_le_add hnew hold).trans_lt ?_)
    decide
  refine ⟨delta, hok, fun b => ?_⟩
  rw [hdelta b, hordered.pivotSum_eq _ hlength.ge, ← hlength, Finsupp.sub_apply,
    DeltaEvaluation.mixed, DeltaEvaluation.mixed, evaluation.mixedFactors_length,
    evaluation.mixedFactors_zero, ← bodyChain, ← bodyChain, bodyChain_perm hperm,
    bodyChain_perm hperm, rule.count_derivations, rule.count_derivations]
  split_ifs
  · rfl
  · exact (sub_zero 0).symm

/-! ## Head tuples -/

namespace CompiledRule

/-- The weight that weighted bindings give to a head tuple. -/
def headWeight (rule : CompiledRule) (bindings : WeightedBindings) (head : Tuple) : ℤ :=
  ((bindings.map.list.filter fun e => rule.derives head e.1).map Prod.snd).sum

theorem headWeight_eq (rule : CompiledRule) {delta : WeightedBindings} {new old : List Binding}
    (h : ∀ b, delta.weight b = (new.count b : ℤ) - old.count b) (head : Tuple) :
    rule.headWeight delta head =
      (new.countP (rule.derives head) : ℤ) - old.countP (rule.derives head) := by
  have hweights : delta.weights = Weighted.indicator new - Weighted.indicator old := by
    ext b
    rw [weights_apply, h b, Finsupp.sub_apply, indicator_apply,
      indicator_apply]
  rw [headWeight, ← total_entries, ← total_indicator,
    ← total_indicator, ← map_sub, ← hweights]
  rfl

/-- Every variable of the head stands in a positive atom. -/
def HeadSafe (rule : CompiledRule) : Prop :=
  ∀ term ∈ rule.headTerms, ∀ slot ∈ term.slot?, slot ∈ bodySlots rule.positiveAtoms

/-- The head of a binding that binds it. -/
def headOf (rule : CompiledRule) (binding : Binding) : Tuple :=
  (rule.instantiateHead binding).toOption.getD []

end CompiledRule

/-- Terms whose slots are bound have values. -/
theorem instantiateTerms_ok (unbound : Symbol → KernelError) {binding : Binding} :
    ∀ {terms : List CompiledTerm},
      (∀ term ∈ terms, ∀ slot ∈ term.slot?, binding.Bound slot) →
      ∃ t, instantiateTerms unbound binding terms = .ok t
  | [], _ => ⟨[], rfl⟩
  | .value v :: terms, h => by
    obtain ⟨t, ht⟩ := instantiateTerms_ok unbound (forall_mem_cons.mp h).2
    exact ⟨v :: t, by rw [instantiateTerms, ht]; rfl⟩
  | .var symbol slot :: terms, h => by
    obtain ⟨hfirst, hrest⟩ := forall_mem_cons.mp h
    obtain ⟨t, ht⟩ := instantiateTerms_ok unbound hrest
    obtain ⟨v, hv⟩ := Option.isSome_iff_exists.mp (hfirst slot rfl)
    exact ⟨v :: t, by rw [instantiateTerms, hv, ht]; rfl⟩

theorem mem_rowChoices : ∀ {lists : List (List Tuple)} {rows : List Tuple},
    rows ∈ rowChoices lists ↔ List.Forall₂ (fun l t => t ∈ l) lists rows
  | [], rows => by
    rw [rowChoices, mem_singleton, forall₂_nil_left_iff]
  | l :: lists, rows => by
    rw [rowChoices, mem_flatMap]
    constructor
    · rintro ⟨t, ht, hrows⟩
      obtain ⟨rest, hrest, rfl⟩ := mem_map.mp hrows
      exact .cons ht (mem_rowChoices.mp hrest)
    · intro h
      cases h with
      | cons ht hrest => exact ⟨_, ht, mem_map.mpr ⟨_, mem_rowChoices.mpr hrest, rfl⟩⟩

/-- What the choice of rows binds. -/
theorem unifyAll_bound : ∀ {factors : List (CompiledAtom × List Tuple)}
    {rows : List Tuple} {binding next : Binding},
      List.Forall₂ (fun factor t => t ∈ factor.2) factors rows →
      (∀ factor ∈ factors, ∀ t ∈ factor.2, t.length = factor.1.terms.length) →
      unifyAll (factors.map Prod.fst) rows binding = some next →
      ∀ slot, next.Bound slot ↔ binding.Bound slot ∨ slot ∈ bodySlots (factors.map Prod.fst)
  | [], _, binding, next, .nil, _, h, slot => by
    obtain rfl := Option.some.inj h
    simp [bodySlots]
  | (atom, _) :: factors, _, binding, next, .cons ht hrows, hlength, h, slot => by
    obtain ⟨middle, hfirst, hrest⟩ := Option.bind_eq_some_iff.mp h
    obtain ⟨hatom, hatoms⟩ := forall_mem_cons.mp hlength
    rw [unifyAll_bound hrows hatoms hrest slot, unify_bound hfirst (hatom _ ht), map_cons,
      bodySlots_cons, or_assoc]
    rfl

theorem mem_bindingsOf {factors : List (CompiledAtom × List Tuple)} {n : ℕ} {b : Binding} :
    b ∈ bindingsOf factors n ↔ ∃ rows, List.Forall₂ (fun factor t => t ∈ factor.2) factors rows ∧
      unifyAll (factors.map Prod.fst) rows (Binding.unbound n) = some b := by
  rw [bindingsOf, mem_filterMap]
  refine exists_congr fun rows => and_congr_left fun _ => ?_
  rw [mem_rowChoices, forall₂_map_left_iff]

/-- A derivation binds the slots of the positive atoms. -/
theorem CompiledRule.bound_of_mem_derivations {collections : Collections}
    (hlength : ∀ atom ∈ rule.positiveAtoms, ∀ t ∈ collections atom.relation,
      t.length = atom.terms.length) {b : Binding} (hb : b ∈ rule.derivations collections)
    (slot : ℕ) : b.Bound slot ↔ slot ∈ bodySlots rule.positiveAtoms := by
  obtain ⟨rows, hrows, hunify⟩ := mem_bindingsOf.mp (mem_of_mem_filter hb)
  have hvalid : ∀ factor ∈ rule.positiveAtoms.map fun atom =>
      (atom, (collections atom.relation).list), ∀ t ∈ factor.2,
        t.length = factor.1.terms.length := by
    intro factor hfactor
    obtain ⟨atom, hatom, rfl⟩ := mem_map.mp hfactor
    exact hlength atom hatom
  have hatoms : (rule.positiveAtoms.map fun atom =>
      (atom, (collections atom.relation).list)).map Prod.fst = rule.positiveAtoms := by
    rw [map_map]
    exact map_id _
  rw [unifyAll_bound hrows hvalid hunify slot, hatoms, Binding.Bound, Binding.get_unbound]
  simp

namespace CompiledRule

variable {rule : CompiledRule}

theorem instantiateHead_eq {b : Binding} (hsafe : rule.HeadSafe)
    (hb : ∀ slot, b.Bound slot ↔ slot ∈ bodySlots rule.positiveAtoms) :
    rule.instantiateHead b = .ok (rule.headOf b) := by
  obtain ⟨t, ht⟩ := instantiateTerms_ok (fun symbol => .rule (.unboundHeadVariable symbol))
    fun term hterm slot hslot => (hb slot).mpr (hsafe term hterm slot hslot)
  have hhead : rule.instantiateHead b = .ok t := ht
  rw [headOf, hhead]
  rfl

theorem derives_iff {b : Binding} (hb : rule.instantiateHead b = .ok (rule.headOf b))
    (head : Tuple) : rule.derives head b = true ↔ rule.headOf b = head := by
  rw [derives, hb, beq_iff_eq]
  exact Option.some_inj

/-- The weight of a head tuple, from the weights of the bindings that have it as their head. -/
theorem entries_headOf {es : List (Binding × ℤ)}
    (hheads : ∀ e ∈ es, rule.instantiateHead e.1 = .ok (rule.headOf e.1)) (head : Tuple) :
    Weighted.entries (es.map fun e => (rule.headOf e.1, e.2)) head =
      ((es.filter fun e => rule.derives head e.1).map Prod.snd).sum := by
  rw [entries_apply, filter_map, map_map]
  refine congrArg (fun l => (List.map Prod.snd l).sum) (filter_congr fun e he => ?_)
  exact Bool.eq_iff_iff.mpr (decide_eq_true_iff.trans (rule.derives_iff (hheads e he) head).symm)

/-- A sum of changes of counts is a change of sums. -/
theorem sum_snd_eq {new old : List Binding} : ∀ {es : List (Binding × ℤ)},
    (∀ e ∈ es, e.2 = (new.count e.1 : ℤ) - old.count e.1) →
      (es.map Prod.snd).sum = (((es.map Prod.fst).map fun k => new.count k).sum : ℤ) -
        ((es.map Prod.fst).map fun k => old.count k).sum
  | [], _ => rfl
  | e :: es, h => by
    obtain ⟨he, hrest⟩ := forall_mem_cons.mp h
    simp only [map_cons, sum_cons, sum_snd_eq hrest, he]
    push_cast
    ring

/-- **Partial sums of a change of counts lie between the counts.** -/
theorem sum_derives_bounds {es : List (Binding × ℤ)} {new old : List Binding}
    (hnodup : (es.map Prod.fst).Nodup)
    (hes : ∀ e ∈ es, e.2 = (new.count e.1 : ℤ) - old.count e.1) (head : Tuple) :
    -(old.countP (rule.derives head) : ℤ) ≤
        ((es.filter fun e => rule.derives head e.1).map Prod.snd).sum ∧
      ((es.filter fun e => rule.derives head e.1).map Prod.snd).sum ≤
        new.countP (rule.derives head) := by
  set chosen := es.filter fun e => rule.derives head e.1 with hchosen
  have hkeys : (chosen.map Prod.fst).Nodup := (filter_sublist.map Prod.fst).nodup hnodup
  have hpass : ∀ k ∈ chosen.map Prod.fst, rule.derives head k = true := by
    intro k hk
    obtain ⟨e, he, rfl⟩ := mem_map.mp hk
    exact (mem_filter.mp he).2
  have hmem : ∀ e ∈ chosen, e.2 = (new.count e.1 : ℤ) - old.count e.1 := fun e he =>
    hes e (mem_of_mem_filter he)
  have hsum := sum_snd_eq hmem
  have hnew := sum_count_le hkeys hpass new
  have hold := sum_count_le hkeys hpass old
  rw [hsum]
  omega

/-- The counts of derivations that the 64-bit weights can hold. -/
def CountsFit (rule : CompiledRule) (derivations : List Binding) : Prop :=
  ∀ head, (derivations.countP (rule.derives head) : ℤ) ≤ maxDiff

/-- A change of counts that fit can be added up. -/
theorem accumulateAll_headOf (site : DiffSite) {es : List (Binding × ℤ)} {new old : List Binding}
    (hnodup : (es.map Prod.fst).Nodup)
    (hes : ∀ e ∈ es, e.2 = (new.count e.1 : ℤ) - old.count e.1)
    (hheads : ∀ e ∈ es, rule.instantiateHead e.1 = .ok (rule.headOf e.1))
    (hnew : rule.CountsFit new) (hold : rule.CountsFit old) :
    ∃ out, accumulateAll site (es.map fun e => (rule.headOf e.1, e.2)) WeightedMap.empty =
        .ok out ∧
      ∀ head, out.weight head = ((es.filter fun e => rule.derives head e.1).map Prod.snd).sum := by
  refine ⟨_, accumulateAll_ok_of_prefixes fun i head => ?_, fun head => ?_⟩
  · have hsub : (es.take i).Sublist es := take_sublist i es
    rw [weight_empty, zero_add, ← map_take,
      rule.entries_headOf fun e he => hheads e (hsub.subset he)]
    have hbounds := rule.sum_derives_bounds ((hsub.map Prod.fst).nodup hnodup)
      (fun e he => hes e (hsub.subset he)) head
    have hnew := hnew head
    have hold := hold head
    unfold FitsDiff maxDiff at *
    omega
  · rw [← weights_apply, weights_addAll, weights_empty,
      zero_add, rule.entries_headOf hheads]

end CompiledRule

theorem projectBindings_eq {site : DiffSite} :
    ∀ {es : List (Binding × ℤ)} {output : WeightedRows},
      (∀ e ∈ es, rule.instantiateHead e.1 = .ok (rule.headOf e.1)) →
      projectBindings rule site es output =
        accumulateAll site (es.map fun e => (rule.headOf e.1, e.2)) output
  | [], _, _ => rfl
  | (b, d) :: es, output, h => by
    obtain ⟨hfirst, hrest⟩ := forall_mem_cons.mp h
    rw [projectBindings, hfirst, map_cons, accumulateAll]
    exact congrArg _ (funext fun output => projectBindings_eq hrest)

/-- **The projection of a change of derivations**, when the counts fit. -/
theorem projectRule_spec {delta : WeightedBindings} {new old : List Binding}
    (hdelta : ∀ b, delta.weight b = (new.count b : ℤ) - old.count b)
    (hheads : ∀ b, b ∈ new ∨ b ∈ old → rule.instantiateHead b = .ok (rule.headOf b))
    (hnew : rule.CountsFit new) (hold : rule.CountsFit old) (version : ℕ) :
    ∃ out, projectRule rule delta version = .ok out ∧
      ∀ head, out.weight head = rule.headWeight delta head := by
  have hes : ∀ e ∈ delta.map.list, e.2 = (new.count e.1 : ℤ) - old.count e.1 := by
    intro e he
    rw [← hdelta, (mem_list.mp he).1]
  have hlist : ∀ e ∈ delta.map.list, rule.instantiateHead e.1 = .ok (rule.headOf e.1) := by
    intro e he
    refine hheads e.1 (by_contra fun hnot => (mem_list.mp he).2 ?_)
    rw [not_or] at hnot
    rw [hes e he, count_eq_zero_of_not_mem hnot.1, count_eq_zero_of_not_mem hnot.2,
      sub_self]
  obtain ⟨out, hok, hout⟩ := rule.accumulateAll_headOf
    ⟨rule.headRelation, "projection", version⟩ delta.nodup_keys hes hlist hnew hold
  exact ⟨out, (projectBindings_eq hlist).trans hok, hout⟩

/-! ## An evaluation from scratch -/

/-- An evaluation with everything built anew from the old and the new rows. -/
def DeltaEvaluation.rebuilt (old new : Collections) (target : RelationId) (version : ℕ) :
    DeltaEvaluation where
  oldCollections := old
  newCollections := new
  relationDeltas relation := some (setDifferenceChanges (old relation) (new relation))
  oldArrangements spec := some (Arrangement.build spec (old spec.relation))
  newArrangements spec := some (Arrangement.build spec (new spec.relation))
  oldTraces := some fun relation => some (Trace.initial version (old relation))
  target := target
  version := version
  context := .serial

theorem DeltaEvaluation.consistent_rebuilt {old new : Collections} {atoms : List CompiledAtom}
    (hold : ∀ atom ∈ atoms, ∀ t ∈ old atom.relation, t.length = atom.terms.length)
    (hnew : ∀ atom ∈ atoms, ∀ t ∈ new atom.relation, t.length = atom.terms.length)
    (target : RelationId) (version : ℕ) :
    (DeltaEvaluation.rebuilt old new target version).Consistent atoms where
  old atom hatom :=
    { length_eq := hold atom hatom
      arrangements := by
        rintro positions _ ⟨⟩
        exact ⟨rfl, Arrangement.build_exact _ _⟩
      trace := by
        rintro _ ⟨⟩
        exact Trace.initial_exact _ (hold atom hatom)
      context := ExecutionContext.serial_correct }
  new atom hatom :=
    { length_eq := hnew atom hatom
      arrangements := by
        rintro positions _ ⟨⟩
        exact ⟨rfl, Arrangement.build_exact _ _⟩
      trace := nofun
      context := ExecutionContext.serial_correct }
  changes atom _ := changes_setDifferenceChanges (old atom.relation) (new atom.relation)

/-! ## The change of the head tuples -/

/-- **Positive delta evaluation is exact.**  Whatever serves each atom, the weights of the bindings
add up, for every head tuple, to the new derivations less the old ones; and so does the projection,
if the rule is safe and the counts fit. -/
theorem positive_delta_exact (rule : CompiledRule) (evaluation : DeltaEvaluation)
    (h : evaluation.Consistent rule.positiveAtoms) :
    ∃ delta, evaluatePositiveBindingDelta rule evaluation = .ok delta ∧
      (∀ head, rule.headWeight delta head =
        (rule.derivationCount evaluation.newCollections head : ℤ) -
          rule.derivationCount evaluation.oldCollections head) ∧
      (rule.HeadSafe → rule.CountsFit (rule.derivations evaluation.newCollections) →
        rule.CountsFit (rule.derivations evaluation.oldCollections) →
        ∃ out, evaluateRuleDelta rule evaluation = .ok out ∧
          ∀ head, out.weight head =
            (rule.derivationCount evaluation.newCollections head : ℤ) -
              rule.derivationCount evaluation.oldCollections head) := by
  obtain ⟨delta, hok, hdelta⟩ := evaluatePositiveBindingDelta_spec h
  have hweight := rule.headWeight_eq hdelta
  refine ⟨delta, hok, hweight, fun hsafe hnew hold => ?_⟩
  have hheads : ∀ b, b ∈ rule.derivations evaluation.newCollections ∨
      b ∈ rule.derivations evaluation.oldCollections →
        rule.instantiateHead b = .ok (rule.headOf b) := by
    rintro b (hb | hb)
    · exact rule.instantiateHead_eq hsafe
        (CompiledRule.bound_of_mem_derivations (fun a ha => (h.new a ha).length_eq) hb)
    · exact rule.instantiateHead_eq hsafe
        (CompiledRule.bound_of_mem_derivations (fun a ha => (h.old a ha).length_eq) hb)
  obtain ⟨out, hout, hweights⟩ := projectRule_spec hdelta hheads hnew hold evaluation.version
  refine ⟨out, ?_, fun head => (hweights head).trans (hweight head)⟩
  rwa [evaluateRuleDelta, hok]

/-- Two steps of a relation make a path. -/
def pathRule : CompiledRule :=
  compileRule ⟨.ofByte 2, [.var ⟨0⟩, .var ⟨2⟩],
    [.atom ⟨.ofByte 1, [.var ⟨0⟩, .var ⟨1⟩], false⟩,
      .atom ⟨.ofByte 1, [.var ⟨1⟩, .var ⟨2⟩], false⟩]⟩

/-- One edge, or an edge and the way back. -/
def edges (back : Bool) : Collections := fun _ =>
  SortedSet.ofList ([.bool true, .bool false] :: if back then [[.bool false, .bool true]] else [])

/-- The way back makes a path from an end to itself. -/
theorem positive_delta_exact_path :
    ∃ delta, evaluatePositiveBindingDelta pathRule
        (DeltaEvaluation.rebuilt (edges false) (edges true) ⟨2, by decide⟩ 1) = .ok delta ∧
      pathRule.headWeight delta [.bool true, .bool true] = 1 := by
  have hlength : ∀ back, ∀ atom ∈ pathRule.positiveAtoms, ∀ t ∈ edges back atom.relation,
      t.length = atom.terms.length := by
    intro back atom hatom t ht
    have hterms : atom.terms.length = 2 := by
      have hall : ∀ a ∈ pathRule.positiveAtoms, a.terms.length = 2 := by decide
      exact hall atom hatom
    rw [edges, SortedSet.mem_ofList] at ht
    cases back <;> simp at ht <;> grind
  obtain ⟨delta, hok, hweight, -⟩ := positive_delta_exact pathRule _
    (DeltaEvaluation.consistent_rebuilt (hlength false) (hlength true) ⟨2, by decide⟩ 1)
  refine ⟨delta, hok, (hweight _).trans ?_⟩
  decide +kernel

end Mica
