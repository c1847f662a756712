import Mica.Kernel.Arrangement
import Mica.Lib.Collect

/-!
# Kernel/DeltaJoin — joining weighted bindings with an atom

An atom is joined either with the changes of its relation (`joinWeighted`) or with all of its rows
(`joinArranged`), and the rows are read from a trace, through an arrangement or by a scan.  All of
them compute the one join of the weighted sets (`joinWeighted_spec`, `joinArranged_spec`), and none
of them overflows: a binding remembers the rows it came from, so every weight is a single product.
-/

open SortedList List WeightedMap Option Weighted

namespace Mica

/-- Bindings with differences. -/
abbrev WeightedBindings := WeightedMap Binding

/-- The visible rows of every relation. -/
abbrev Collections := RelationId → Collection

abbrev Arrangements := ArrangementSpec → Option Arrangement

/-- `unit_binding`. -/
def unitBinding (slotCount : ℕ) : WeightedBindings :=
  WeightedMap.empty.set (Binding.unbound slotCount) 1 Int.one_ne_zero

/-! ## The code -/

/-- The columns of an atom that a binding determines, with their values. -/
def boundColumns (atom : CompiledAtom) (binding : Binding) : List (ℕ × Value) :=
  atom.terms.zipIdx.filterMap fun term => (term.1.eval binding).map fun value => (term.2, value)

/-- `arrangement_binding_key`. -/
def arrangementBindingKey (atom : CompiledAtom) (binding : Binding) :
    Option (List ℕ × List Value) :=
  let columns := boundColumns atom binding
  if columns.isEmpty then none else some (columns.map Prod.fst, columns.map Prod.snd)

/-- The loop over `checked_multiply` and `checked_accumulate`. -/
def multiplyAll {κ : Type} [LinearOrder κ] (site : DiffSite) :
    List (κ × ℤ × ℤ) → WeightedMap κ → Except KernelError (WeightedMap κ)
  | [], values => .ok values
  | (key, left, right) :: rest, values =>
    (checkedMultiply site left right).bind fun difference =>
      (checkedAccumulate site values key difference).bind (multiplyAll site rest)

/-- A row joined to a binding, with the two differences. -/
def joinRow (atom : CompiledAtom) (binding : Binding × ℤ) (row : Tuple × ℤ) :
    Option (Binding × ℤ × ℤ) :=
  (unify atom binding.1 row.1).map fun next => (next, binding.2, row.2)

/-- `join_weighted`. -/
def joinWeighted (bindings : WeightedBindings) (atom : CompiledAtom) (rows : WeightedRows)
    (target : RelationId) (version : ℕ) : Except KernelError WeightedBindings :=
  multiplyAll ⟨target, "join", version⟩
    (bindings.map.list.flatMap fun binding => rows.map.list.filterMap (joinRow atom binding))
    WeightedMap.empty

structure FullJoinInput where
  rows : Collection
  arrangements : Arrangements
  trace : Option Trace
  target : RelationId
  version : ℕ
  context : ExecutionContext

/-- The joined rows of a list of pairs of a binding and a row of a batch. -/
def joinPairs (atom : CompiledAtom) (bindings : List (Binding × ℤ)) (rows : List (Tuple × ℤ))
    (pairs : List EqualityJoinMatch) : List (Binding × ℤ × ℤ) :=
  pairs.filterMap fun pair =>
    (bindings[pair.leftRow]?).bind fun binding =>
      (rows[pair.rightRow]?).bind fun row => joinRow atom binding row

/-- The loop of `join_weighted_trace` over the batches; one batch is joined by the accelerator, and
a decline gives the whole join up.  The source expects the native join to succeed, which
`native_matches` shows it does. -/
def joinBatches (atom : CompiledAtom) (input : FullJoinInput) (bindings : List (Binding × ℤ))
    (delta : PackedRelation) (positions : List ℕ) (accelerated : ℕ) :
    List ((TraceBatch × PackedRelation) × ℕ) → WeightedBindings →
      Except KernelError (Option WeightedBindings)
  | [], output => .ok (some output)
  | ((batch, packed), index) :: rest, output =>
    let deltaPositions := List.range positions.length
    let found := if index = accelerated then
        executeDifferentialEqualityJoin delta packed deltaPositions positions input.context
      else some ((executeNativeEqualityJoinMatches delta packed deltaPositions positions).getD [])
    match found with
    | none => .ok none
    | some pairs =>
      (multiplyAll ⟨input.target, "packed join", input.version⟩
        (joinPairs atom bindings batch.rows pairs) output).bind
        (joinBatches atom input bindings delta positions accelerated rest)

/-- The positions that all the bindings share, with the key of each binding. -/
def sharedKeys (atom : CompiledAtom) (bindings : List (Binding × ℤ)) :
    Option (List ℕ × List Tuple) := do
  let keys ← bindings.mapM fun binding => arrangementBindingKey atom binding.1
  let first ← keys.head?
  if keys.all fun key => key.1 == first.1 && decide (KeyPositions key.1) &&
      key.2.all Value.isImmediate then
    some (first.1, keys.map Prod.snd)
  else none

/-- The batches that are not empty, packed. -/
def packedBatches (trace : Trace) : Option (List (TraceBatch × PackedRelation)) :=
  (trace.allBatches.filter fun batch => !batch.rows.isEmpty).mapM fun batch =>
    batch.packed.map fun packed => (batch, packed)

/-- `join_weighted_trace`. -/
def joinWeightedTrace (bindings : WeightedBindings) (atom : CompiledAtom) (trace : Trace)
    (input : FullJoinInput) : Except KernelError (Option WeightedBindings) :=
  if bindings.isEmpty then .ok (some WeightedMap.empty)
  else if input.context.acceleratesWeightedJoins then
    match sharedKeys atom bindings.map.list with
    | none => .ok none
    | some (positions, keyRows) =>
      match PackedRelation.fromCanonicalTuples keyRows positions.length, packedBatches trace with
      | some delta, some batches =>
        match batches.findIdx? fun batch =>
            differentialEqualityJoinEligible delta.rowCount batch.2.rowCount with
        | none => .ok none
        | some accelerated =>
          joinBatches atom input bindings.map.list delta positions accelerated batches.zipIdx
            WeightedMap.empty
      | _, _ => .ok none
  else .ok none

/-- The rows that `join_arranged` tries with a binding: those under its key, or all of them. -/
def candidates (atom : CompiledAtom) (input : FullJoinInput) (binding : Binding) : List Tuple :=
  match arrangementBindingKey atom binding with
  | none => input.rows.list
  | some (positions, key) =>
    match input.arrangements ⟨atom.relation, positions⟩ with
    | none => input.rows.list
    | some arrangement => (arrangement.lookup key).list

/-- The part of `join_arranged` that probes the arrangements. -/
def joinProbes (bindings : WeightedBindings) (atom : CompiledAtom) (input : FullJoinInput) :
    Except KernelError WeightedBindings :=
  accumulateAll ⟨input.target, "arranged join", input.version⟩
    (bindings.map.list.flatMap fun binding =>
      (candidates atom input binding.1).filterMap fun t =>
        (unify atom binding.1 t).map fun next => (next, binding.2))
    WeightedMap.empty

/-- `join_arranged`. -/
def joinArranged (bindings : WeightedBindings) (atom : CompiledAtom) (input : FullJoinInput) :
    Except KernelError WeightedBindings :=
  match input.trace with
  | none => joinProbes bindings atom input
  | some trace =>
    (joinWeightedTrace bindings atom trace input).bind fun
      | some output => .ok output
      | none => joinProbes bindings atom input

/-! ## What the loops do -/

theorem multiplyAll_eq {κ : Type} [LinearOrder κ] {site : DiffSite} :
    ∀ {products : List (κ × ℤ × ℤ)} {values : WeightedMap κ},
      (∀ p ∈ products, FitsDiff (p.2.1 * p.2.2)) →
      multiplyAll site products values =
        accumulateAll site (products.map fun p => (p.1, p.2.1 * p.2.2)) values
  | [], _, _ => rfl
  | (key, left, right) :: rest, values, h => by
    obtain ⟨hfirst, hrest⟩ := forall_mem_cons.mp h
    rw [multiplyAll, checkedMultiply, if_pos hfirst, map_cons, accumulateAll]
    exact congrArg _ (funext fun values => multiplyAll_eq hrest)

/-- Distinct keys with weights of one, added to weights that leave room. -/
theorem accumulateAll_unit {κ : Type} [LinearOrder κ] (site : DiffSite) {es : List (κ × ℤ)}
    (values : WeightedMap κ) (bound : ℕ) (hnodup : (es.map Prod.fst).Nodup)
    (hunit : ∀ e ∈ es, |e.2| ≤ 1) (hvalues : ∀ k, |values.weight k| ≤ bound)
    (hbound : (bound : ℤ) < maxDiff) :
    ∃ out, accumulateAll site es values = .ok out ∧
      out.weights = values.weights + Weighted.entries es ∧ ∀ k, |out.weight k| ≤ (bound + 1 : ℕ) := by
  refine ⟨values.addAll es, accumulateAll_ok_of_nodup hnodup fun e he => ?_,
    weights_addAll es, fun k => ?_⟩
  · refine fitsDiff_of_abs_le ((abs_add_le _ _).trans ?_)
    have := hvalues e.1
    have := hunit e he
    omega
  · rw [← weights_apply, weights_addAll, Finsupp.add_apply,
      weights_apply]
    refine (abs_add_le _ _).trans ?_
    have := hvalues k
    have := abs_entries_le hnodup hunit k
    push_cast
    omega

theorem flatMap_filterMap_eq {α β γ : Type} (f : α → β → Option γ) (l : List α) (m : List β) :
    (l.flatMap fun a => m.filterMap (f a)) = (l ×ˢ m).filterMap fun p => f p.1 p.2 := by
  induction l with
  | nil => simp
  | cons a l ih =>
    rw [flatMap_cons, ih, product_cons, filterMap_append, filterMap_map]
    rfl

/-! ## Aligned bindings -/

/-- **Bindings on the way through a body**: all bind the same slots, and no weight exceeds one. -/
structure Aligned (slots : Set ℕ) (n : ℕ) (bindings : WeightedBindings) : Prop where
  length_eq : ∀ b, bindings.weight b ≠ 0 → b.length = n
  bound_iff : ∀ b, bindings.weight b ≠ 0 → ∀ slot, b.Bound slot ↔ slot ∈ slots
  unit : ∀ b, |bindings.weight b| ≤ 1

section Aligned

variable {slots : Set ℕ} {n : ℕ} {bindings out : WeightedBindings} {atom : CompiledAtom}
  {rs : List (Tuple × ℤ)}

theorem aligned_unitBinding (n : ℕ) : Aligned ∅ n (unitBinding n) := by
  have hkey : ∀ b, (unitBinding n).weight b ≠ 0 → b = Binding.unbound n := by
    intro b hb
    by_contra hne
    rw [unitBinding, weight_set, if_neg hne] at hb
    exact hb rfl
  refine ⟨fun b hb => ?_, fun b hb slot => ?_, fun b => ?_⟩
  · rw [hkey b hb, Binding.unbound, length_replicate]
  · simp [hkey b hb, Binding.Bound]
  · rw [unitBinding, weight_set]
    split_ifs <;> simp

theorem Aligned.mem_list (h : Aligned slots n bindings) {e : Binding × ℤ}
    (he : e ∈ bindings.map.list) :
    e.1.length = n ∧ (∀ slot, e.1.Bound slot ↔ slot ∈ slots) ∧ |e.2| ≤ 1 := by
  obtain ⟨hweight, hne⟩ := WeightedMap.mem_list.mp he
  have hb : bindings.weight e.1 ≠ 0 := hweight ▸ hne
  exact ⟨h.length_eq _ hb, h.bound_iff _ hb, hweight ▸ h.unit e.1⟩

/-- A joined binding remembers what it came from. -/
theorem Aligned.injective (h : Aligned slots n bindings)
    (hrows : UnitRows atom.terms.length rs) {u u' : Binding × ℤ} (hu : u ∈ bindings.map.list)
    (hu' : u' ∈ bindings.map.list) {r r' : Tuple × ℤ} (hr : r ∈ rs) (hr' : r' ∈ rs) {c : Binding}
    (hc : unify atom u.1 r.1 = some c) (hc' : unify atom u'.1 r'.1 = some c) :
    u.1 = u'.1 ∧ r.1 = r'.1 :=
  unify_injective hc hc' (hrows.length_eq r hr) (hrows.length_eq r' hr') fun slot =>
    ((h.mem_list hu).2.1 slot).trans ((h.mem_list hu').2.1 slot).symm

theorem Aligned.nodup_pairEntries (h : Aligned slots n bindings)
    (hrows : UnitRows atom.terms.length rs) :
    ((Weighted.pairEntries (unify atom) bindings.map.list rs).map Prod.fst).Nodup :=
  Weighted.nodup_pairEntries bindings.nodup_keys hrows.nodup fun _ hu _ hr _ hu' _ hr' _ hc hc' =>
    h.injective hrows hu hu' hr hr' hc hc'

theorem abs_mul_le_one {a b : ℤ} (ha : |a| ≤ 1) (hb : |b| ≤ 1) : |a * b| ≤ 1 := by
  rw [abs_mul]
  exact mul_le_one₀ ha (abs_nonneg _) hb

theorem Aligned.unit_pairEntries (h : Aligned slots n bindings)
    (hrows : UnitRows atom.terms.length rs) :
    ∀ e ∈ Weighted.pairEntries (unify atom) bindings.map.list rs, |e.2| ≤ 1 := by
  intro e he
  obtain ⟨⟨u, r⟩, hp, heq⟩ := mem_filterMap.mp he
  obtain ⟨hu, hr⟩ := mem_product.mp hp
  obtain ⟨c, -, rfl⟩ := map_eq_some_iff.mp heq
  exact abs_mul_le_one (h.mem_list hu).2.2 (hrows.unit r hr)

/-- **A join keeps bindings aligned.** -/
theorem Aligned.join (h : Aligned slots n bindings) (hrows : UnitRows atom.terms.length rs)
    (hout : out.weights = Weighted.join (unify atom) bindings.weights (Weighted.entries rs)) :
    Aligned (slots ∪ {slot | slot ∈ atom.slots}) n out := by
  have hentries : ∀ c, out.weight c =
      Weighted.entries (Weighted.pairEntries (unify atom) bindings.map.list rs) c := by
    intro c
    rw [← weights_apply, hout, entries_pairEntries]
    rfl
  have hsource : ∀ c, out.weight c ≠ 0 → ∃ u ∈ bindings.map.list, ∃ r ∈ rs,
      unify atom u.1 r.1 = some c := by
    intro c hc
    have hmem : c ∈ (Weighted.pairEntries (unify atom) bindings.map.list rs).map Prod.fst := by
      by_contra hnot
      exact hc ((hentries c).trans (entries_apply_of_notMem hnot))
    obtain ⟨e, he, rfl⟩ := mem_map.mp hmem
    obtain ⟨⟨u, r⟩, hp, heq⟩ := mem_filterMap.mp he
    obtain ⟨hu, hr⟩ := mem_product.mp hp
    obtain ⟨c, hunify, rfl⟩ := map_eq_some_iff.mp heq
    exact ⟨u, hu, r, hr, hunify⟩
  refine ⟨fun c hc => ?_, fun c hc slot => ?_, fun c => ?_⟩
  · obtain ⟨u, hu, r, -, hunify⟩ := hsource c hc
    exact (unify_length hunify).trans (h.mem_list hu).1
  · obtain ⟨u, hu, r, hr, hunify⟩ := hsource c hc
    rw [unify_bound hunify (hrows.length_eq r hr), (h.mem_list hu).2.1]
    rfl
  · rw [hentries]
    exact abs_entries_le (h.nodup_pairEntries hrows) (h.unit_pairEntries hrows) c

/-! ## Joining changes -/

theorem joinWeighted_spec (h : Aligned slots n bindings) {rows : WeightedRows}
    (hrows : UnitRows atom.terms.length rows.map.list) (target : RelationId) (version : ℕ) :
    ∃ out, joinWeighted bindings atom rows target version = .ok out ∧
      out.weights = Weighted.join (unify atom) bindings.weights rows.weights := by
  have hops : (bindings.map.list.flatMap fun b => rows.map.list.filterMap (joinRow atom b)).map
      (fun p => (p.1, p.2.1 * p.2.2)) =
        Weighted.pairEntries (unify atom) bindings.map.list rows.map.list := by
    rw [flatMap_filterMap_eq, map_filterMap, Weighted.pairEntries]
    refine congrArg (List.filterMap · _) (funext fun p => ?_)
    rw [joinRow, Option.map_map]
    rfl
  have hfits : ∀ p ∈ bindings.map.list.flatMap fun b => rows.map.list.filterMap (joinRow atom b),
      FitsDiff (p.2.1 * p.2.2) := by
    intro p hp
    obtain ⟨u, hu, hp⟩ := mem_flatMap.mp hp
    obtain ⟨r, hr, heq⟩ := mem_filterMap.mp hp
    obtain ⟨c, -, rfl⟩ := map_eq_some_iff.mp heq
    refine fitsDiff_of_abs_le ((abs_mul_le_one (h.mem_list hu).2.2 (hrows.unit r hr)).trans ?_)
    decide
  obtain ⟨out, hok, hweights, -⟩ := accumulateAll_unit ⟨target, "join", version⟩
    WeightedMap.empty 0 (h.nodup_pairEntries hrows) (h.unit_pairEntries hrows) (by simp) (by decide)
  refine ⟨out, ?_, ?_⟩
  · rw [joinWeighted, multiplyAll_eq hfits, hops, hok]
  · rw [hweights, weights_empty, zero_add, entries_pairEntries]
    rfl

/-! ## Joining all rows -/

/-- **An input for an atom**: everything that is kept for its relation shows the same rows. -/
structure FullJoinInput.Exact (atom : CompiledAtom) (input : FullJoinInput) : Prop where
  length_eq : ∀ t ∈ input.rows, t.length = atom.terms.length
  arrangements : ∀ positions arrangement,
    input.arrangements ⟨atom.relation, positions⟩ = some arrangement →
      arrangement.spec.positions = positions ∧ arrangement.Exact input.rows
  trace : ∀ trace ∈ input.trace, trace.Exact atom.terms.length input.rows
  context : input.context.Correct

/-- The row of a unified binding has the values of the columns that were bound before. -/
theorem select_boundColumns {binding next : Binding} {t : Tuple}
    (h : unify atom binding t = some next) (hlen : t.length = atom.terms.length) :
    t.select ((boundColumns atom binding).map Prod.fst) =
      (boundColumns atom binding).map Prod.snd := by
  have hcolumn : ∀ e ∈ boundColumns atom binding, t[e.1]? = some e.2 := by
    intro e he
    obtain ⟨⟨term, p⟩, hterm, heq⟩ := mem_filterMap.mp he
    obtain ⟨v, hv, rfl⟩ := map_eq_some_iff.mp heq
    have hp : atom.terms[p]? = some term := mem_zipIdx_iff_getElem?.mp hterm
    have hget := congrArg (fun l : List (Option Value) => l[p]?) (unify_eval h hlen)
    simp only [getElem?_map, hp, map_some] at hget
    obtain ⟨w, hw, hwv⟩ := map_eq_some_iff.mp hget.symm
    have hkeep : term.eval next = some v := by
      cases term with
      | value expected => exact hv
      | var symbol slot => exact unify_keeps h hv
    rw [hw]
    exact hwv.trans hkeep
  rw [Tuple.select, filterMap_map]
  have hmap : (boundColumns atom binding).filterMap ((fun p => t[p]?) ∘ Prod.fst) =
      (boundColumns atom binding).filterMap fun e => some e.2 :=
    filterMap_congr fun e he => hcolumn e he
  rw [hmap, filterMap_eq_map']

/-- **Through an arrangement or not, the same rows are joined.** -/
theorem filterMap_candidates {input : FullJoinInput} (hinput : input.Exact atom)
    {γ : Type} (binding : Binding) (f : Binding → γ) :
    ((candidates atom input binding).filterMap fun t => (unify atom binding t).map f) =
      input.rows.list.filterMap fun t => (unify atom binding t).map f := by
  unfold candidates
  split
  · rfl
  rename_i positions key hkey
  split
  · rfl
  rename_i arrangement harr
  obtain ⟨hpositions, hexact⟩ := hinput.arrangements positions arrangement harr
  have hlist : (arrangement.lookup key).list =
      input.rows.list.filter fun t => t.select positions = key := by
    refine eq_of_mem_iff (arrangement.lookup key).sorted (input.rows.sorted.filter _) fun t => ?_
    rw [mem_filter, decide_eq_true_eq]
    exact hpositions ▸ hexact key t
  rw [hlist, filterMap_filter]
  refine filterMap_congr fun t ht => ?_
  by_cases hsel : t.select positions = key
  · rw [if_pos (decide_eq_true hsel)]
  rw [if_neg (mt of_decide_eq_true hsel)]
  cases hunify : unify atom binding t with
  | none => rfl
  | some next =>
    unfold arrangementBindingKey at hkey
    dsimp only at hkey
    split_ifs at hkey
    obtain ⟨rfl, rfl⟩ := Prod.mk.inj (some.inj hkey)
    exact absurd (select_boundColumns hunify (hinput.length_eq t ht)) hsel

theorem joinProbes_spec (h : Aligned slots n bindings) {input : FullJoinInput}
    (hinput : input.Exact atom) :
    ∃ out, joinProbes bindings atom input = .ok out ∧
      out.weights = Weighted.join (unify atom) bindings.weights input.rows.weights := by
  have hrows := Collection.unitRows hinput.length_eq
  have hops : (bindings.map.list.flatMap fun binding =>
      (candidates atom input binding.1).filterMap fun t =>
        (unify atom binding.1 t).map fun next => (next, binding.2)) =
      Weighted.pairEntries (unify atom) bindings.map.list input.rows.entries := by
    have hpoint : ∀ binding : Binding × ℤ,
        ((candidates atom input binding.1).filterMap fun t =>
          (unify atom binding.1 t).map fun next => (next, binding.2)) =
        input.rows.entries.filterMap fun r =>
          (unify atom binding.1 r.1).map fun next => (next, binding.2 * r.2) := by
      intro binding
      rw [filterMap_candidates hinput, Collection.entries, filterMap_map]
      simp only [Function.comp_def, mul_one]
    simp only [hpoint]
    rw [flatMap_filterMap_eq]
    rfl
  obtain ⟨out, hok, hweights, -⟩ := accumulateAll_unit
    ⟨input.target, "arranged join", input.version⟩ WeightedMap.empty 0 (h.nodup_pairEntries hrows)
      (h.unit_pairEntries hrows) (by simp) (by decide)
  refine ⟨out, ?_, ?_⟩
  · rw [joinProbes, hops, hok]
  · rw [hweights, weights_empty, zero_add, entries_pairEntries,
      Collection.weights_eq]
    rfl

/-! ## Joining a trace -/

/-- The pairs with equal keys join to the same entries as all pairs. -/
theorem Aligned.joinPairs_perm (h : Aligned slots n bindings)
    (hrows : UnitRows atom.terms.length rs) {positions : List ℕ} {keyRows : List Tuple}
    (hkeys : ∀ (i : ℕ) (u : Binding × ℤ), bindings.map.list[i]? = some u →
      ∃ key, keyRows[i]? = some key ∧
      key.length = positions.length ∧ arrangementBindingKey atom u.1 = some (positions, key))
    {pairs : List EqualityJoinMatch}
    (hpairs : JoinsRows keyRows (rs.map Prod.fst) (List.range positions.length) positions pairs) :
    ((joinPairs atom bindings.map.list rs pairs).map fun p => (p.1, p.2.1 * p.2.2)).Perm
      (Weighted.pairEntries (unify atom) bindings.map.list rs) := by
  have hget : ∀ (pair : EqualityJoinMatch) (c : Binding × ℤ),
    (((bindings.map.list[pair.leftRow]?).bind fun u =>
      (rs[pair.rightRow]?).bind fun r => joinRow atom u r).map fun p : Binding × ℤ × ℤ =>
        (p.1, p.2.1 * p.2.2)) = some c → ∃ (u : Binding × ℤ) (r : Tuple × ℤ),
          bindings.map.list[pair.leftRow]? = some u ∧
          rs[pair.rightRow]? = some r ∧ unify atom u.1 r.1 = some c.1 ∧ c.2 = u.2 * r.2 := by
    intro pair c hc
    obtain ⟨p, hp, rfl⟩ := map_eq_some_iff.mp hc
    obtain ⟨u, hu, hp⟩ := bind_eq_some_iff.mp hp
    obtain ⟨r, hr, hp⟩ := bind_eq_some_iff.mp hp
    obtain ⟨next, hnext, rfl⟩ := map_eq_some_iff.mp hp
    exact ⟨u, r, hu, hr, hnext, rfl⟩
  have hnodup : ((joinPairs atom bindings.map.list rs pairs).map fun p =>
      (p.1, p.2.1 * p.2.2)).Nodup := by
    rw [joinPairs, map_filterMap]
    refine nodup_filterMap_of_injOn hpairs.1 fun pair _ pair' _ c hc hc' => ?_
    obtain ⟨u, r, hu, hr, hunify, -⟩ := hget pair c hc
    obtain ⟨u', r', hu', hr', hunify', -⟩ := hget pair' c hc'
    obtain ⟨heq, heq'⟩ := h.injective hrows (mem_of_getElem? hu) (mem_of_getElem? hu')
      (mem_of_getElem? hr) (mem_of_getElem? hr') hunify hunify'
    have hleft : (bindings.map.list.map Prod.fst)[pair.leftRow]? =
        (bindings.map.list.map Prod.fst)[pair'.leftRow]? := by
      rw [getElem?_map, getElem?_map, hu, hu', map_some, map_some, heq]
    have hright : (rs.map Prod.fst)[pair.rightRow]? = (rs.map Prod.fst)[pair'.rightRow]? := by
      rw [getElem?_map, getElem?_map, hr, hr', map_some, map_some, heq']
    have hlt : pair.leftRow < (bindings.map.list.map Prod.fst).length := by
      rw [length_map]
      exact (List.getElem?_eq_some_iff.mp hu).1
    have hlt' : pair.rightRow < (rs.map Prod.fst).length := by
      rw [length_map]
      exact (List.getElem?_eq_some_iff.mp hr).1
    obtain ⟨l, r⟩ := pair
    obtain ⟨l', r'⟩ := pair'
    obtain rfl : l = l' := (getElem?_inj hlt bindings.nodup_keys).mp hleft
    obtain rfl : r = r' := (getElem?_inj hlt' hrows.nodup).mp hright
    rfl
  refine (perm_ext_iff_of_nodup hnodup ((h.nodup_pairEntries hrows).of_map _)).mpr ?_
  rintro ⟨c, d⟩
  rw [joinPairs, map_filterMap, mem_filterMap, Weighted.pairEntries, mem_filterMap]
  constructor
  · rintro ⟨pair, -, hc⟩
    obtain ⟨u, r, hu, hr, hunify, rfl⟩ := hget pair _ hc
    refine ⟨(u, r), mem_product.mpr ⟨mem_of_getElem? hu, mem_of_getElem? hr⟩, ?_⟩
    exact map_eq_some_iff.mpr ⟨c, hunify, rfl⟩
  rintro ⟨⟨u, r⟩, hp, hc⟩
  obtain ⟨hu, hr⟩ := mem_product.mp hp
  obtain ⟨next, hunify, heq⟩ := map_eq_some_iff.mp hc
  obtain ⟨i, hi⟩ := getElem?_of_mem hu
  obtain ⟨j, hj⟩ := getElem?_of_mem hr
  obtain ⟨key, hkey, hlen, hbinding⟩ := hkeys i u hi
  have hsel : r.1.select positions = key := by
    unfold arrangementBindingKey at hbinding
    dsimp only at hbinding
    split_ifs at hbinding
    obtain ⟨rfl, rfl⟩ := Prod.mk.inj (some.inj hbinding)
    exact select_boundColumns hunify (hrows.length_eq r hr)
  refine ⟨⟨i, j⟩, (hpairs.2 ⟨i, j⟩).mpr ⟨key, r.1, hkey, ?_, ?_⟩, ?_⟩
  · rw [getElem?_map, hj, map_some]
  · rw [← hlen, RelationValue.select_range, hsel]
  · simp only [hi, hj, bind_some, joinRow, hunify, map_some]
    exact congrArg some heq

/-- A batch with its packed rows. -/
structure PackedBatch (atom : CompiledAtom) (batch : TraceBatch × PackedRelation) : Prop where
  rows : UnitRows atom.terms.length batch.1.rows
  packed : batch.2.rows = batch.1.rows.map Prod.fst
  arity : batch.2.arity = atom.terms.length

/-- **The loop over the batches joins their sum**, or gives up. -/
theorem Aligned.joinBatches_spec (h : Aligned slots n bindings) {input : FullJoinInput}
    (hcontext : input.context.Correct) {positions : List ℕ} (hkey : KeyPositions positions)
    (hpositions : ∀ p ∈ positions, p < atom.terms.length) {delta : PackedRelation}
    (hdelta : delta.arity = positions.length)
    (hkeys : ∀ (i : ℕ) (u : Binding × ℤ), bindings.map.list[i]? = some u → ∃ key,
      delta.rows[i]? = some key ∧ key.length = positions.length ∧
        arrangementBindingKey atom u.1 = some (positions, key)) (accelerated : ℕ)
    (batches : List ((TraceBatch × PackedRelation) × ℕ)) (output : WeightedBindings) (bound : ℕ)
    (hbatches : ∀ batch ∈ batches, PackedBatch atom batch.1)
    (hbound : ∀ b, |output.weight b| ≤ bound) (hroom : (bound + batches.length : ℤ) < maxDiff) :
    joinBatches atom input bindings.map.list delta positions accelerated batches output =
        .ok none ∨
      ∃ out, joinBatches atom input bindings.map.list delta positions accelerated batches output =
          .ok (some out) ∧
        out.weights = output.weights + Weighted.join (unify atom) bindings.weights
          (Weighted.entries (batches.flatMap fun batch => batch.1.1.rows)) := by
  induction batches generalizing output bound with
  | nil =>
    refine .inr ⟨output, rfl, ?_⟩
    rw [flatMap_nil, entries_nil, map_zero, add_zero]
  | cons first batches ih =>
    obtain ⟨⟨batch, packed⟩, index⟩ := first
    obtain ⟨hbatch, hrest⟩ := forall_mem_cons.mp hbatches
    have hkey' : KeyPositions (List.range positions.length) := by
      rwa [KeyPositions, length_range]
    have hleft : ∀ p ∈ List.range positions.length, p < delta.arity := fun p hp =>
      hdelta ▸ mem_range.mp hp
    have hright : ∀ p ∈ positions, p < packed.arity := fun p hp =>
      hbatch.arity ▸ hpositions p hp
    obtain ⟨native, hnative, hnativeRows⟩ :=
      native_matches length_range hkey' hleft hright
    rw [joinBatches]
    set found := if index = accelerated then
        executeDifferentialEqualityJoin delta packed (List.range positions.length) positions
          input.context
      else some ((executeNativeEqualityJoinMatches delta packed (List.range positions.length)
        positions).getD []) with hfound
    have hpairs : ∀ pairs, found = some pairs → JoinsRows delta.rows (batch.rows.map Prod.fst)
        (List.range positions.length) positions pairs := by
      intro pairs hp
      rw [← hbatch.packed]
      rw [hfound] at hp
      split_ifs at hp
      · exact accelerated_matches hcontext hp
      · rw [hnative, getD_some] at hp
        exact some.inj hp ▸ hnativeRows
    cases hcase : found with
    | none => exact .inl rfl
    | some pairs =>
      have hperm := h.joinPairs_perm hbatch.rows hkeys (hpairs pairs hcase)
      have hnodup := (hperm.map Prod.fst).nodup_iff.mpr (h.nodup_pairEntries hbatch.rows)
      have hunit : ∀ e ∈ (joinPairs atom bindings.map.list batch.rows pairs).map
          (fun p => (p.1, p.2.1 * p.2.2)), |e.2| ≤ 1 := fun e he =>
        h.unit_pairEntries hbatch.rows e (hperm.subset he)
      have hfits : ∀ p ∈ joinPairs atom bindings.map.list batch.rows pairs,
          FitsDiff (p.2.1 * p.2.2) := fun p hp =>
        fitsDiff_of_abs_le ((hunit _ (mem_map.mpr ⟨p, hp, rfl⟩)).trans (by decide))
      rw [length_cons] at hroom
      push_cast at hroom
      obtain ⟨middle, hok, hweights, hmiddle⟩ := accumulateAll_unit
        ⟨input.target, "packed join", input.version⟩ output bound hnodup hunit hbound (by omega)
      dsimp only
      rw [multiplyAll_eq hfits, hok]
      have hsum : middle.weights = output.weights +
          Weighted.join (unify atom) bindings.weights (Weighted.entries batch.rows) := by
        rw [hweights, entries_perm hperm, entries_pairEntries]
        rfl
      have hroom' : ((bound + 1 : ℕ) + batches.length : ℤ) < maxDiff := by
        push_cast
        omega
      rcases ih middle (bound + 1) hrest hmiddle hroom' with hnone | ⟨out, hout, houtw⟩
      · exact .inl hnone
      · refine .inr ⟨out, hout, ?_⟩
        rw [houtw, hsum, flatMap_cons, entries_append, map_add, add_assoc]

theorem sharedKeys_spec {us : List (Binding × ℤ)} {positions : List ℕ} {keyRows : List Tuple}
    (h : sharedKeys atom us = some (positions, keyRows)) :
    KeyPositions positions ∧ (∀ p ∈ positions, p < atom.terms.length) ∧
      ∀ (i : ℕ) (u : Binding × ℤ), us[i]? = some u → ∃ key, keyRows[i]? = some key ∧
        key.length = positions.length ∧ arrangementBindingKey atom u.1 = some (positions, key) := by
  unfold sharedKeys at h
  obtain ⟨keys, hkeys, h⟩ := bind_eq_some_iff.mp h
  obtain ⟨first, hfirst, h⟩ := bind_eq_some_iff.mp h
  split_ifs at h with hall
  obtain ⟨rfl, rfl⟩ := Prod.mk.inj (some.inj h)
  have hforall := Collect.mapM_eq_some.mp hkeys
  have hkey : ∀ key ∈ keys, key.1 = first.1 ∧ KeyPositions key.1 := by
    intro key hkey
    have := all_eq_true.mp hall key hkey
    simp only [Bool.and_eq_true, beq_iff_eq, decide_eq_true_eq] at this
    exact ⟨this.1.1, this.1.2⟩
  have hmem : first ∈ keys := mem_of_head? hfirst
  refine ⟨(hkey first hmem).2, fun p hp => ?_, fun i u hu => ?_⟩
  · obtain ⟨i, hi⟩ := getElem?_of_mem hmem
    obtain ⟨hlen, hget⟩ := forall₂_iff_get.mp hforall
    have hik : i < keys.length := (List.getElem?_eq_some_iff.mp hi).1
    have hbinding := hget i (hlen ▸ hik) hik
    have hkeyi : keys.get ⟨i, hik⟩ = first := (List.getElem?_eq_some_iff.mp hi).2
    rw [hkeyi] at hbinding
    unfold arrangementBindingKey at hbinding
    dsimp only at hbinding
    split_ifs at hbinding
    rw [← some.inj hbinding] at hp
    obtain ⟨e, he, rfl⟩ := mem_map.mp hp
    obtain ⟨⟨term, p⟩, hterm, heq⟩ := mem_filterMap.mp he
    obtain ⟨v, -, rfl⟩ := map_eq_some_iff.mp heq
    have hp : atom.terms[p]? = some term := mem_zipIdx_iff_getElem?.mp hterm
    exact (List.getElem?_eq_some_iff.mp hp).1
  · obtain ⟨hlen, hget⟩ := forall₂_iff_get.mp hforall
    have hiu : i < us.length := (List.getElem?_eq_some_iff.mp hu).1
    have hbinding := hget i hiu (hlen ▸ hiu)
    rw [get_eq_getElem, (List.getElem?_eq_some_iff.mp hu).2] at hbinding
    set key := keys.get ⟨i, hlen ▸ hiu⟩ with hkeyi
    have hfirstKey := (hkey key (get_mem _ _)).1
    refine ⟨key.2, ?_, ?_, ?_⟩
    · rw [getElem?_map, getElem?_eq_getElem (hlen ▸ hiu), map_some]
      rfl
    · rw [← hfirstKey]
      unfold arrangementBindingKey at hbinding
      dsimp only at hbinding
      split_ifs at hbinding
      rw [← some.inj hbinding, length_map, length_map]
    · rw [hbinding, ← hfirstKey]

theorem packedBatches_spec {arity : ℕ} {rows : Collection} {trace : Trace}
    (htrace : trace.Exact arity rows) (harity : arity = atom.terms.length)
    {batches : List (TraceBatch × PackedRelation)} (h : packedBatches trace = some batches) :
    (∀ batch ∈ batches, PackedBatch atom batch) ∧ batches.length ≤ trace.allBatches.length ∧
      Weighted.entries (batches.flatMap fun batch => batch.1.rows) = rows.weights := by
  have hforall := Collect.mapM_eq_some.mp h
  have hfst : batches.map Prod.fst = trace.allBatches.filter fun batch => !batch.rows.isEmpty := by
    clear h
    generalize trace.allBatches.filter (fun batch => !batch.rows.isEmpty) = sources at hforall
    induction hforall with
    | nil => rfl
    | cons hpacked _ ih =>
      obtain ⟨packed, -, rfl⟩ := map_eq_some_iff.mp hpacked
      rw [map_cons, ih]
  refine ⟨fun batch hbatch => ?_, ?_, ?_⟩
  · obtain ⟨i, hi⟩ := getElem?_of_mem hbatch
    obtain ⟨hlen, hget⟩ := forall₂_iff_get.mp hforall
    have hib : i < batches.length := (List.getElem?_eq_some_iff.mp hi).1
    have hpacked := hget i (hlen ▸ hib) hib
    rw [show batches.get ⟨i, hib⟩ = batch from (List.getElem?_eq_some_iff.mp hi).2] at hpacked
    set source := (trace.allBatches.filter fun batch => !batch.rows.isEmpty).get ⟨i, hlen ▸ hib⟩
      with hsource
    have hmem : source ∈ trace.allBatches := mem_of_mem_filter (get_mem _ _)
    obtain ⟨packed, hp, rfl⟩ := map_eq_some_iff.mp hpacked
    have hvalid := htrace.valid source hmem
    unfold TraceBatch.packed at hp
    split at hp
    · cases hp
    rename_i t d rest hrows
    obtain ⟨hprows, hparity⟩ := PackedRelation.fromCanonicalTuples_eq_some hp
    refine ⟨harity ▸ hvalid, hprows, hparity.trans (Eq.trans ?_ harity)⟩
    exact hvalid.length_eq (t, d) (hrows ▸ mem_cons_self)
  · rw [← length_map Prod.fst, hfst]
    exact length_filter_le _ _
  · have hflat : (batches.flatMap fun batch => batch.1.rows) =
        (batches.map Prod.fst).flatMap TraceBatch.rows := (flatMap_map _ _ _).symm
    rw [hflat, hfst, ← htrace.weights_eq]
    congr 1
    generalize trace.allBatches = all
    induction all with
    | nil => rfl
    | cons batch all ih =>
      rw [filter_cons, flatMap_cons, ← ih]
      by_cases hb : batch.rows = []
      · simp [hb]
      · simp [hb]

theorem joinWeightedTrace_spec (h : Aligned slots n bindings) {input : FullJoinInput}
    (hinput : input.Exact atom) {trace : Trace} (htrace : trace ∈ input.trace) :
    joinWeightedTrace bindings atom trace input = .ok none ∨
      ∃ out, joinWeightedTrace bindings atom trace input = .ok (some out) ∧
        out.weights = Weighted.join (unify atom) bindings.weights input.rows.weights := by
  unfold joinWeightedTrace
  split_ifs with hempty haccelerates
  · refine .inr ⟨WeightedMap.empty, rfl, ?_⟩
    rw [eq_empty_of_isEmpty hempty, weights_empty, map_zero,
      LinearMap.zero_apply]
  · cases hkeys : sharedKeys atom bindings.map.list with
    | none => exact .inl rfl
    | some shared =>
      obtain ⟨positions, keyRows⟩ := shared
      obtain ⟨hkey, hpositions, hrows⟩ := sharedKeys_spec hkeys
      dsimp only
      cases hdelta : PackedRelation.fromCanonicalTuples keyRows positions.length with
      | none => exact .inl rfl
      | some delta =>
        obtain ⟨hdeltaRows, harity⟩ := PackedRelation.fromCanonicalTuples_eq_some hdelta
        cases hbatches : packedBatches trace with
        | none => exact .inl rfl
        | some batches =>
          dsimp only
          cases hfind : batches.findIdx? fun batch =>
              differentialEqualityJoinEligible delta.rowCount batch.2.rowCount with
          | none => exact .inl rfl
          | some accelerated =>
            have hexact := hinput.trace trace htrace
            obtain ⟨hpacked, hlen, hweights⟩ := packedBatches_spec hexact rfl hbatches
            have hroom : ((0 : ℕ) + batches.zipIdx.length : ℤ) < maxDiff := by
              have hfew := hexact.few
              rw [Trace.allBatches, length_cons] at hlen
              rw [length_zipIdx]
              unfold Trace.compactionBatches at hfew
              unfold maxDiff
              omega
            have hspec := h.joinBatches_spec hinput.context hkey hpositions harity
              (hdeltaRows ▸ hrows) accelerated batches.zipIdx WeightedMap.empty 0
              (fun batch hbatch => hpacked _ (fst_mem_of_mem_zipIdx hbatch)) (by simp) hroom
            have hflat : (batches.zipIdx.flatMap fun batch => batch.1.1.rows) =
                batches.flatMap fun batch => batch.1.rows := by
              conv_rhs => rw [← zipIdx_map_fst 0 batches, flatMap_map]
            rwa [hflat, hweights, weights_empty, zero_add] at hspec
  · exact .inl rfl

/-- **All access paths join the rows of the relation.** -/
theorem joinArranged_spec (h : Aligned slots n bindings) {input : FullJoinInput}
    (hinput : input.Exact atom) :
    ∃ out, joinArranged bindings atom input = .ok out ∧
      out.weights = Weighted.join (unify atom) bindings.weights input.rows.weights := by
  unfold joinArranged
  cases htrace : input.trace with
  | none => exact joinProbes_spec h hinput
  | some trace =>
    dsimp only
    rcases joinWeightedTrace_spec h hinput htrace with hnone | ⟨out, hout, hweights⟩
    · rw [hnone]
      exact joinProbes_spec h hinput
    · rw [hout]
      exact ⟨out, rfl, hweights⟩

end Aligned

end Mica
