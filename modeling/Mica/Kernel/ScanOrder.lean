import Mica.Kernel.RelationState

/-!
# Kernel/ScanOrder — when the rows of a scan come sorted

Merges of scanned rows with local changes walk both in row order.  An index serves its rows in the
order of its own columns, which is row order among the rows that match exactly when the index asks
for the free columns from left to right (`TupleIndexSpec.OrderedUnder`).

* `scan_eq_filter` — a scan in order is the filtered set of rows.
* `exists_out_of_order` — an index that skips a free column yields two rows the wrong way round.
* `exists_lost` — an index that takes repeated columns for a key of the whole row loses a row.
-/

open OrderCode SortedList List

namespace Mica

/-- **The index asks for the free columns from left to right.** -/
def TupleIndexSpec.OrderedUnder (bindings : Bindings) (spec : TupleIndexSpec) : Prop :=
  ∀ (j p : ℕ), spec.positions[j]? = some p → bindings.isBound p = false →
    ∀ q < p, bindings.isBound q = false → q ∈ spec.positions.take j

/-- **A scan comes in row order**: no index serves it, or one that keeps every row and asks for the
free columns from left to right. -/
def RelationMetadata.ScansInOrder (metadata : RelationMetadata) (bindings : Bindings) : Prop :=
  ∀ spec, metadata.scanIndex bindings = some spec →
    spec.Faithful metadata.arity ∧ spec.OrderedUnder bindings

/-- Whether a stored row can hold the bound values. -/
def Bindings.arePersistable (bindings : Bindings) : Bool :=
  bindings.all fun b => (b.map Value.isPersistable).getD true

/-- **Reads come out exact**: no index serves them, or one that keeps every row and either asks for
the free columns from left to right or is asked for a value that no stored row can hold. -/
def RelationMetadata.ReadsInOrder (metadata : RelationMetadata) (bindings : Bindings) : Prop :=
  ∀ spec, metadata.scanIndex bindings = some spec →
    spec.Faithful metadata.arity ∧
      (spec.OrderedUnder bindings ∨ bindings.arePersistable = false)

variable {bindings : Bindings}

/-- A stored row matches persistable bindings only. -/
theorem Bindings.arePersistable_of_matches {t : Tuple}
    (ht : ∀ v ∈ t, v.isPersistable = true) (h : t.matchesBindings bindings = true) :
    bindings.arePersistable = true := by
  refine all_eq_true.mpr fun b hb => ?_
  cases b with
  | none => rfl
  | some w =>
    obtain ⟨p, hp⟩ := mem_iff_getElem?.mp hb
    exact ht w (mem_of_getElem? (Tuple.matchesBindings_iff.mp h p w hp))

/-! ## Rows compare at the first column that differs -/

theorem lt_of_first_difference : ∀ {t u : Tuple} {p : ℕ} {a b : Value}, t[p]? = some a →
    u[p]? = some b → (∀ q < p, t[q]? = u[q]?) → a < b → t < u
  | v :: t, w :: u, 0, a, b, ha, hb, _, hab => by
    obtain rfl : v = a := by simpa using ha
    obtain rfl : w = b := by simpa using hb
    exact cons_lt_cons_iff.mpr (Or.inl hab)
  | v :: t, w :: u, p + 1, a, b, ha, hb, h, hab => by
    obtain rfl : v = w := by simpa using h 0 (Nat.succ_pos p)
    refine cons_lt_cons_iff.mpr (Or.inr ⟨rfl, ?_⟩)
    refine lt_of_first_difference (by simpa using ha) (by simpa using hb) (fun q hq => ?_) hab
    simpa using h (q + 1) (Nat.succ_lt_succ hq)
  | [], _, _, _, _, ha, _, _, _ => by simp at ha
  | _ :: _, [], _, _, _, _, hb, _, _ => by simp at hb

/-- Rows of one length that are in order differ first at some column. -/
theorem exists_first_difference : ∀ {t u : Tuple}, t.length = u.length → t < u →
    ∃ (p : ℕ) (a b : Value), t[p]? = some a ∧ u[p]? = some b ∧ (∀ q < p, t[q]? = u[q]?) ∧ a < b
  | [], u, h, hlt => by
    obtain rfl := length_eq_zero_iff.mp h.symm
    exact absurd hlt (lt_irrefl _)
  | v :: t, [], h, _ => nomatch h
  | v :: t, w :: u, h, hlt => by
    rcases cons_lt_cons_iff.mp hlt with hvw | ⟨rfl, htail⟩
    · exact ⟨0, v, w, rfl, rfl, fun q hq => absurd hq (Nat.not_lt_zero q), hvw⟩
    obtain ⟨p, a, b, ha, hb, hq, hab⟩ := exists_first_difference (Nat.succ.inj h) htail
    refine ⟨p + 1, a, b, by simpa using ha, by simpa using hb, fun q hq' => ?_, hab⟩
    cases q with
    | zero => rfl
    | succ q => simpa using hq q (Nat.lt_of_succ_lt_succ hq')

theorem getElem?_eq_of_matches {t u : Tuple} {p : ℕ}
    (ht : t.matchesBindings bindings = true) (hu : u.matchesBindings bindings = true)
    (hp : bindings.isBound p = true) : t[p]? = u[p]? := by
  obtain ⟨w, hw⟩ := Option.isSome_iff_exists.mp hp
  have hw := Option.join_eq_some_iff.mp hw
  rw [Tuple.matchesBindings_iff.mp ht p w hw, Tuple.matchesBindings_iff.mp hu p w hw]

/-- **Index order is row order** for an index that asks for the free columns from left to right. -/
theorem lt_of_before {spec : TupleIndexSpec} {t u : Tuple}
    (hord : spec.OrderedUnder bindings) (ht : ∀ p ∈ spec.positions, p < t.length)
    (hu : ∀ p ∈ spec.positions, p < u.length) (htm : t.matchesBindings bindings = true)
    (hum : u.matchesBindings bindings = true) (h : TupleIndex.Before spec.positions t u) :
    t < u := by
  rcases h with hlt | ⟨-, hlt⟩
  · have hlen : (t.select spec.positions).length = (u.select spec.positions).length := by
      rw [Tuple.length_select ht, Tuple.length_select hu]
    obtain ⟨j, a, b, ha, hb, hsame, hab⟩ := exists_first_difference hlen hlt
    rw [Tuple.getElem?_select ht] at ha
    obtain ⟨p, hp, ha⟩ := Option.bind_eq_some_iff.mp ha
    rw [Tuple.getElem?_select hu, hp, Option.bind_some] at hb
    refine lt_of_first_difference ha hb (fun q hq => ?_) hab
    -- columns left of `p` are bound, or come before it in the index
    cases hbound : bindings.isBound q with
    | true => exact getElem?_eq_of_matches htm hum hbound
    | false =>
      have hpfree : bindings.isBound p = false := by
        refine Bool.eq_false_iff.mpr fun hpb => hab.ne ?_
        have hsame := getElem?_eq_of_matches htm hum hpb
        rw [ha, hb] at hsame
        exact Option.some.inj hsame
      obtain ⟨i, hi⟩ := mem_iff_getElem?.mp (hord j p hp hpfree q hq hbound)
      rw [getElem?_take] at hi
      split_ifs at hi with hij
      have hcol := hsame i hij
      rwa [Tuple.getElem?_select ht, Tuple.getElem?_select hu, hi, Option.bind_some,
        Option.bind_some] at hcol
  · exact hlt

section Scan

variable {M : Type → Type} [ByteMap M] {state : RelationState M} {bindings : Bindings}

/-- **A scan in order is the filtered set of rows.** -/
theorem RelationState.scan_eq_filter (h : state.Valid)
    (hlen : bindings.length = state.metadata.arity)
    (hord : state.metadata.ScansInOrder bindings) :
    state.scan bindings = .ok (state.rows.list.filter fun t => t.matchesBindings bindings) := by
  rcases hindex : state.metadata.scanIndex bindings with _ | spec
  · exact scan_of_scanIndex_eq_none h hlen hindex
  obtain ⟨hfaithful, hordered⟩ := hord spec hindex
  obtain ⟨index, hmem, rfl, hscan⟩ := scan_of_scanIndex_eq_some h hlen hindex
  have hind := h.indexes index hmem hfaithful
  have hbound := h.bound hmem
  have hfound : ∀ t, t ∈ index.scanPrefix bindings (index.spec.leadingBoundCount bindings) ↔
      t ∈ state.rows ∧ t.matchesBindings bindings = true := fun t =>
    hind.mem_scanPrefix hbound h.length_eq
  rw [hscan]
  refine congrArg Except.ok (eq_of_mem_iff ?_ (state.rows.sorted.filter _) fun t => ?_)
  rotate_left
  · rw [hfound, mem_filter]
    rfl
  refine (hind.pairwise_scanPrefix bindings _).imp_of_mem fun ht hu hbefore => ?_
  obtain ⟨ht, htm⟩ := (hfound _).mp ht
  obtain ⟨hu, hum⟩ := (hfound _).mp hu
  exact lt_of_before hordered ((h.length_eq _ ht).symm ▸ hbound)
    ((h.length_eq _ hu).symm ▸ hbound) htm hum hbefore

/-- A scan served by an index that keeps every row finds every row that matches, once. -/
theorem RelationState.scan_faithful (h : state.Valid)
    (hlen : bindings.length = state.metadata.arity)
    (hfaithful : ∀ spec, state.metadata.scanIndex bindings = some spec →
      spec.Faithful state.metadata.arity) :
    ∃ out, state.scan bindings = .ok out ∧ out.Nodup ∧
      ∀ t, t ∈ out ↔ t ∈ state.rows ∧ t.matchesBindings bindings = true := by
  rcases hindex : state.metadata.scanIndex bindings with _ | spec
  · exact ⟨_, scan_of_scanIndex_eq_none h hlen hindex,
      (state.rows.sorted.filter _).imp ne_of_lt, fun t => mem_filter⟩
  obtain ⟨index, hmem, rfl, hscan⟩ := scan_of_scanIndex_eq_some h hlen hindex
  have hind := h.indexes index hmem (hfaithful _ hindex)
  refine ⟨_, hscan, (hind.pairwise_scanPrefix bindings _).imp ?_,
    fun t => hind.mem_scanPrefix (h.bound hmem) h.length_eq⟩
  rintro t u hbefore rfl
  rcases hbefore with hlt | ⟨-, hlt⟩
  · exact lt_irrefl _ hlt
  · exact lt_irrefl _ hlt

end Scan

/-! ## Rows that fill in the free columns -/

/-- The row with the bound values, and `f` in the free columns. -/
def Bindings.fill (bindings : Bindings) (f : ℕ → Value) : Tuple :=
  (List.range bindings.length).map fun p => bindings[p]?.join.getD (f p)

namespace Bindings

variable {bindings : Bindings} {f g : ℕ → Value} {p : ℕ}

@[simp] theorem length_fill : (bindings.fill f).length = bindings.length := by
  rw [fill, length_map, length_range]

theorem getElem?_fill (hp : p < bindings.length) :
    (bindings.fill f)[p]? = some (bindings[p]?.join.getD (f p)) := by
  rw [fill, getElem?_map, getElem?_range hp, Option.map_some]

theorem getElem?_fill_of_free (hp : p < bindings.length) (h : bindings.isBound p = false) :
    (bindings.fill f)[p]? = some (f p) := by
  rw [getElem?_fill hp, Option.not_isSome_iff_eq_none.mp (Bool.eq_false_iff.mp h), Option.getD_none]

/-- Two fillings agree in a column that is bound, or that both fill alike. -/
theorem getElem?_fill_congr (h : bindings.isBound p = false → f p = g p) :
    (bindings.fill f)[p]? = (bindings.fill g)[p]? := by
  by_cases hp : p < bindings.length
  · rw [getElem?_fill hp, getElem?_fill hp]
    rcases hb : bindings[p]?.join with _ | v
    · rw [Option.getD_none, Option.getD_none, h (by rw [isBound, hb]; rfl)]
    rfl
  · have hlen : ∀ f, (bindings.fill f).length ≤ p := fun f => length_fill.trans_le (not_lt.mp hp)
    rw [getElem?_eq_none (hlen f), getElem?_eq_none (hlen g)]

theorem matchesBindings_fill : (bindings.fill f).matchesBindings bindings = true := by
  refine Tuple.matchesBindings_iff.mpr fun p w hp => ?_
  rw [getElem?_fill (List.getElem?_eq_some_iff.mp hp).1, hp, Option.join_some, Option.getD_some]

theorem isPersistable_fill (hb : bindings.arePersistable = true)
    (hf : ∀ p, (f p).isPersistable = true) : ∀ v ∈ bindings.fill f, v.isPersistable = true := by
  intro v hv
  obtain ⟨p, hp, rfl⟩ := mem_map.mp hv
  rcases hj : bindings[p]?.join with _ | w
  · exact hf p
  have hmem : some w ∈ bindings := mem_of_getElem? (Option.join_eq_some_iff.mp hj)
  simpa using all_eq_true.mp hb _ hmem

end Bindings

/-- A row with `true` in one column and `false` in the other free columns. -/
def Bindings.fillAt (bindings : Bindings) (p : ℕ) : Tuple :=
  bindings.fill fun q => Value.bool (q == p)

theorem Bindings.isPersistable_fillAt (hb : bindings.arePersistable = true)
    (p : ℕ) : ∀ v ∈ bindings.fillAt p, v.isPersistable = true :=
  isPersistable_fill hb fun _ => rfl

theorem Value.bool_lt : Value.bool false < Value.bool true := by decide

section Misordered

variable {M : Type → Type} [ByteMap M] {state : RelationState M} {bindings : Bindings}
  {spec : TupleIndexSpec} {metadata : RelationMetadata}

/-- Of the columns an index asks for out of turn, the one it asks for first. -/
theorem TupleIndexSpec.exists_out_of_turn (h : ¬ spec.OrderedUnder bindings) :
    ∃ j p q, spec.positions[j]? = some p ∧ p ∉ spec.positions.take j ∧
      q ∉ spec.positions.take j ∧ q < p ∧ bindings.isBound p = false ∧
        bindings.isBound q = false := by
  simp only [OrderedUnder, not_forall] at h
  obtain ⟨j, p, hj, hp, q, hqp, hq, hnot⟩ := h
  -- move to the first place of `p`
  have hex : ∃ j : ℕ, spec.positions[j]? = some p := ⟨j, hj⟩
  refine ⟨Nat.find hex, p, q, Nat.find_spec hex, ?_, ?_, hqp, hp, hq⟩
  · intro hin
    obtain ⟨i, hi⟩ := mem_iff_getElem?.mp hin
    rw [getElem?_take] at hi
    split_ifs at hi with hlt
    exact Nat.find_min hex hlt hi
  · exact fun hin => hnot (take_subset_take_left _ (Nat.find_min' hex hj) hin)

/-- Filling `p` or `q` with `true` gives rows that differ in these two columns. -/
theorem Bindings.getElem?_fillAt_congr {p q r : ℕ}
    (h : bindings.isBound r = false → r ≠ p ∧ r ≠ q) :
    (bindings.fillAt p)[r]? = (bindings.fillAt q)[r]? :=
  getElem?_fill_congr fun hr => by
    rw [beq_eq_false_iff_ne.mpr (h hr).1, beq_eq_false_iff_ne.mpr (h hr).2]

theorem RelationMetadata.mem_indexes_of_scanIndex (h : metadata.scanIndex bindings = some spec) :
    spec ∈ metadata.indexes ∧ spec ∈ metadata.secondaryIndexes := by
  unfold scanIndex at h
  split at h
  · cases h
  split at h
  · cases h
  rename_i found hmax
  split at h
  · cases h
  obtain rfl := Option.some.inj h
  have hmem := mem_of_mem_filter (mem_of_lastMaxBy hmax)
  exact ⟨mem_of_mem_filter hmem, hmem⟩

theorem TupleIndex.Before.asymm {positions : List ℕ} {t u : Tuple} (h : Before positions t u) :
    ¬ Before positions u t := by
  rintro (hlt | ⟨heq, hlt⟩)
  · rcases h with h | ⟨h, -⟩
    · exact lt_asymm h hlt
    · exact lt_irrefl _ (h ▸ hlt)
  · rcases h with h | ⟨-, h⟩
    · exact lt_irrefl _ (heq ▸ h)
    · exact lt_asymm h hlt

/-- Two rows in index order, and nothing else. -/
theorem TupleIndex.eq_pair {positions : List ℕ} {l : List Tuple} {t u : Tuple}
    (hl : l.Pairwise (Before positions)) (hmem : ∀ x, x ∈ l ↔ x = t ∨ x = u)
    (h : Before positions t u) : l = [t, u] := by
  have hne : ∀ {a b : Tuple}, Before positions a b → a ≠ b := by
    rintro a b hab rfl
    exact hab.asymm hab
  have hpair : [t, u].Pairwise (Before positions) := by simpa using h
  have hperm : l.Perm [t, u] :=
    (perm_ext_iff_of_nodup (hl.imp hne) (hpair.imp hne)).mpr fun x => by
      rw [hmem, mem_pair]
  exact hperm.eq_of_pairwise (fun a b _ _ hab hba => absurd hba hab.asymm) hl hpair

/-- **An index that asks for a free column out of turn yields two rows the wrong way round.** -/
theorem RelationMetadata.exists_out_of_order (haccepted : validateMetadata metadata = .ok ())
    (hlen : bindings.length = metadata.arity) (hspec : metadata.scanIndex bindings = some spec)
    (hfaithful : spec.Faithful metadata.arity) (hord : ¬ spec.OrderedUnder bindings) :
    ∃ p q, bindings.fillAt p < bindings.fillAt q ∧
      ∀ state : RelationState M, state.Valid → state.metadata = metadata →
        (∀ t, t ∈ state.rows ↔ t = bindings.fillAt q ∨ t = bindings.fillAt p) →
          state.scan bindings = .ok [bindings.fillAt q, bindings.fillAt p] := by
  obtain ⟨j, p, q, hj, hpj, hqj, hqp, hp, hq⟩ := TupleIndexSpec.exists_out_of_turn hord
  have hbound : ∀ r ∈ spec.positions, r < metadata.arity :=
    (validateMetadata_eq_ok.mp haccepted).1 spec (mem_indexes_of_scanIndex hspec).1
  have hplt : p < bindings.length := hlen ▸ hbound p (mem_of_getElem? hj)
  have hqlt : q < bindings.length := hqp.trans hplt
  have hcol : ∀ {r c : ℕ}, r < bindings.length → bindings.isBound r = false →
      (bindings.fillAt c)[r]? = some (Value.bool (r == c)) :=
    fun hr hfree => Bindings.getElem?_fill_of_free hr hfree
  refine ⟨p, q, ?_, fun state hvalid hmeta hrows => ?_⟩
  · -- the rows differ first in column `q`
    refine lt_of_first_difference (p := q) (hcol hqlt hq) (hcol hqlt hq) (fun r hr => ?_) ?_
    · exact Bindings.getElem?_fillAt_congr fun _ => ⟨(hr.trans hqp).ne, hr.ne⟩
    · rw [beq_eq_false_iff_ne.mpr hqp.ne, beq_self_eq_true]
      exact Value.bool_lt
  subst hmeta
  obtain ⟨index, hindex, rfl, hscan⟩ := RelationState.scan_of_scanIndex_eq_some hvalid hlen hspec
  have hind := hvalid.indexes index hindex hfaithful
  have hfill : ∀ c, ∀ r ∈ index.spec.positions, r < (bindings.fillAt c).length := fun c r hr => by
    rw [Bindings.fillAt, Bindings.length_fill, hlen]
    exact hbound r hr
  rw [hscan]
  refine congrArg Except.ok (TupleIndex.eq_pair (hind.pairwise_scanPrefix bindings _)
    (fun t => ?_) (Or.inl ?_))
  · rw [hind.mem_scanPrefix hbound hvalid.length_eq, hrows]
    refine and_iff_left_of_imp ?_
    rintro (rfl | rfl)
    · exact Bindings.matchesBindings_fill
    · exact Bindings.matchesBindings_fill
  · -- the index meets column `p` first
    refine lt_of_first_difference (p := j) (a := Value.bool (p == q)) (b := Value.bool (p == p))
      ?_ ?_ (fun i hi => ?_) ?_
    · rw [Tuple.getElem?_select (hfill q), hj, Option.bind_some, hcol hplt hp]
    · rw [Tuple.getElem?_select (hfill p), hj, Option.bind_some, hcol hplt hp]
    · rw [Tuple.getElem?_select (hfill q), Tuple.getElem?_select (hfill p)]
      rcases hr : index.spec.positions[i]? with _ | r
      · rfl
      have hmem : r ∈ index.spec.positions.take j :=
        mem_of_getElem? (i := i) (by rw [getElem?_take, if_pos hi, hr])
      refine Bindings.getElem?_fillAt_congr fun _ => ⟨?_, ?_⟩
      · rintro rfl
        exact hqj hmem
      · rintro rfl
        exact hpj hmem
    · rw [beq_eq_false_iff_ne.mpr hqp.ne', beq_self_eq_true]
      exact Value.bool_lt

/-- Repeated columns leave another one out. -/
theorem TupleIndexSpec.exists_missing {arity : ℕ} (h : ¬ spec.Faithful arity) :
    spec.positions.length = arity ∧ ∃ q < arity, q ∉ spec.positions := by
  obtain ⟨hlen, hdup⟩ := Classical.not_imp.mp h
  refine ⟨hlen, ?_⟩
  by_contra hall
  push Not at hall
  have hsub : List.range arity ⊆ spec.positions := fun q hq => hall q (mem_range.mp hq)
  have hperm : (List.range arity).Perm spec.positions :=
    (subperm_of_subset nodup_range hsub).perm_of_length_le (by simp [hlen])
  exact hdup (hperm.nodup_iff.mp nodup_range)

/-- A value other than the one given. -/
def otherValue (v : Option Value) : Value :=
  if v = some (Value.bool false) then Value.bool true else Value.bool false

theorem otherValue_ne (v : Option Value) : some (otherValue v) ≠ v := by
  unfold otherValue
  split
  · next h => rw [h]; decide
  · next h => exact fun heq => h heq.symm

theorem isPersistable_otherValue (v : Option Value) : (otherValue v).isPersistable = true := by
  unfold otherValue
  split <;> rfl

/-- A row with the same key in other columns. -/
theorem TupleIndexSpec.exists_same_key {arity q : ℕ} (hbound : ∀ r ∈ spec.positions, r < arity)
    (hq : q < arity) (hmissing : q ∉ spec.positions) {t : Tuple} (htlen : t.length = arity) :
    (t.set q (otherValue t[q]?)).length = arity ∧ t.set q (otherValue t[q]?) ≠ t ∧
      tupleKey spec.positions t = tupleKey spec.positions (t.set q (otherValue t[q]?)) := by
  have hulen : (t.set q (otherValue t[q]?)).length = arity := by rw [length_set, htlen]
  refine ⟨hulen, fun heq => ?_, TupleIndex.tupleKey_eq_iff.mpr
    ((TupleIndex.select_congr (htlen.symm ▸ hbound) (hulen.symm ▸ hbound)).mpr fun r hr => ?_)⟩
  · have hcol := congrArg (fun r : Tuple => r[q]?) heq
    rw [getElem?_set_self (htlen.symm ▸ hq)] at hcol
    exact otherValue_ne _ hcol
  · have hne : q ≠ r := fun h => hmissing (h ▸ hr)
    rw [getElem?_set_ne hne]

/-- In an index with unique keys the second of two rows of one key takes the place of the first. -/
theorem RelationState.notMem_bucket_insert_insert {state : RelationState M}
    (hempty : RelationState.empty metadata = .ok state) {t u : Tuple} (htu : u ≠ t)
    (hplen : spec.positions.length = metadata.arity)
    (hkey : tupleKey spec.positions t = tupleKey spec.positions u) {index : TupleIndex M}
    (hindex : index ∈ ((state.insert t).1.insert u).1.indexes) (hspec : index.spec = spec)
    (key : Bytes) : t ∉ index.bucket key := by
  obtain ⟨rfl, hrows, -⟩ := RelationState.empty_spec hempty
  have hnew : t ∉ state.rows := hrows ▸ SortedSet.notMem_empty t
  have hnew' : u ∉ (state.insert t).1.rows := by
    rw [RelationState.insert_rows, SortedSet.mem_insert, hrows]
    exact not_or.mpr ⟨htu, SortedSet.notMem_empty u⟩
  -- the index is the one that first received `t` and then `u` under the same key
  rw [RelationState.insert_indexes, if_neg hnew', RelationState.insert_indexes, if_neg hnew,
    map_map] at hindex
  have hfresh : ∀ i ∈ state.indexes, i = TupleIndex.empty i.spec state.metadata.arity := by
    intro i hi
    rw [RelationState.empty_indexes hempty] at hi
    obtain ⟨spec, -, rfl⟩ := mem_map.mp hi
    rfl
  obtain ⟨old, hold, rfl⟩ := mem_map.mp hindex
  simp only [Function.comp_apply, TupleIndex.insert_spec] at hspec
  subst hspec
  have hunique : old.uniqueKeys = true := by
    rw [hfresh old hold]
    exact beq_iff_eq.mpr hplen
  intro hbucket
  simp only [Function.comp_apply] at hbucket
  rw [TupleIndex.bucket_insert, TupleIndex.bucket_insert, TupleIndex.insert_spec,
    TupleIndex.insert_uniqueKeys, hunique, if_pos rfl, if_pos rfl, hkey] at hbucket
  split_ifs at hbucket with hk
  · exact htu (TupleIndex.mem_bucketOne.mp hbucket).symm
  · rw [hfresh old hold, TupleIndex.bucket_empty] at hbucket
    exact SortedSet.notMem_empty t hbucket

/-- **An index that takes repeated columns for a key of the whole row loses a row.** -/
theorem RelationMetadata.exists_lost (haccepted : validateMetadata metadata = .ok ())
    (hlen : bindings.length = metadata.arity) (hspec : metadata.scanIndex bindings = some spec)
    (hlost : ¬ spec.Faithful metadata.arity) :
    ∃ t u : Tuple, t.length = metadata.arity ∧ u.length = metadata.arity ∧
      t.matchesBindings bindings = true ∧
      (bindings.arePersistable = true → ∀ v ∈ t ++ u, v.isPersistable = true) ∧
      ∀ state : RelationState M, RelationState.empty metadata = .ok state →
        ∃ out, ((state.insert t).1.insert u).1.scan bindings = .ok out ∧ t ∉ out := by
  obtain ⟨hplen, q, hq, hmissing⟩ := TupleIndexSpec.exists_missing hlost
  have hbound : ∀ r ∈ spec.positions, r < metadata.arity :=
    (validateMetadata_eq_ok.mp haccepted).1 spec (mem_indexes_of_scanIndex hspec).1
  generalize ht : bindings.fillAt metadata.arity = t
  have htlen : t.length = metadata.arity := by
    rw [← ht, Bindings.fillAt, Bindings.length_fill, hlen]
  obtain ⟨hulen, htu, hkey⟩ := TupleIndexSpec.exists_same_key hbound hq hmissing htlen
  generalize hu : t.set q (otherValue t[q]?) = u at hulen htu hkey
  refine ⟨t, u, htlen, hulen, ht ▸ Bindings.matchesBindings_fill, fun hb v hv => ?_,
    fun state hempty => ?_⟩
  · have hpt : ∀ v ∈ t, v.isPersistable = true := ht ▸ Bindings.isPersistable_fillAt hb _
    rcases mem_append.mp hv with hv | hv
    · exact hpt v hv
    · rcases mem_or_eq_of_mem_set (hu ▸ hv) with hv | rfl
      · exact hpt v hv
      · exact isPersistable_otherValue _
  · obtain ⟨hmeta, -, hvalid⟩ := RelationState.empty_spec hempty
    subst hmeta
    have hvalid' : ((state.insert t).1.insert u).1.Valid := by
      refine (hvalid.insert htlen).insert ?_
      rw [RelationState.insert_metadata, hulen]
    have hmeta' : ((state.insert t).1.insert u).1.metadata = state.metadata := by
      rw [RelationState.insert_metadata, RelationState.insert_metadata]
    obtain ⟨index, hindex, hi, hscan⟩ := RelationState.scan_of_scanIndex_eq_some hvalid'
      (hmeta' ▸ hlen) (hmeta' ▸ hspec)
    refine ⟨_, hscan, fun hin => ?_⟩
    obtain ⟨key, -, hbucket, -⟩ := TupleIndex.mem_scanPrefix_iff_bucket.mp hin
    exact RelationState.notMem_bucket_insert_insert hempty htu hplen hkey hindex hi key hbucket

end Misordered

end Mica
