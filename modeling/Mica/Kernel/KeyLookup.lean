import Mica.Kernel.ScanOrder

/-!
# Kernel/KeyLookup — the row at a functional key

A functional relation holds at most one row for each value of its key columns.  Transactions look
the row up, through the row store, through an index with exactly the key columns, or by a scan that
binds them; which of these depends on the metadata alone (`RelationMetadata.keyIndex`).

* `tupleForKey_eq_some` — a lookup finds the row of the key, if the index it goes through keeps every
  row and the key is one.
* `tupleForProjectedKey_select` — both forms of the lookup agree.
-/

open OrderCode SortedList List

namespace Mica

/-! ## The index behind a lookup -/

/-- A scan that asks for some columns, by whatever values. -/
def keyMask (arity : ℕ) (positions : List ℕ) : Bindings :=
  RelationState.keyBindings arity (positions.map fun p => (p, some (Value.bool false)))

/-- The index that answers a lookup by key: the one with just the key columns, or the one that serves
a scan by them. -/
def RelationMetadata.keyIndex (metadata : RelationMetadata) (positions : List ℕ) :
    Option TupleIndexSpec :=
  if isNaturalFullTuplePositions positions metadata.arity then none
  else
    match metadata.secondaryIndexes.find? fun spec => spec.positions = positions with
    | some spec => some spec
    | none => metadata.scanIndex (keyMask metadata.arity positions)

/-- **Key lookups find every row**: the index behind them does not take repeated columns for a key
of the whole row. -/
def RelationMetadata.FindsKeys (metadata : RelationMetadata) (positions : List ℕ) : Prop :=
  ∀ spec ∈ metadata.keyIndex positions, spec.Faithful metadata.arity

instance (metadata : RelationMetadata) (positions : List ℕ) :
    Decidable (metadata.FindsKeys positions) :=
  match h : metadata.keyIndex positions with
  | none => isTrue fun _ hspec => nomatch h.symm.trans hspec
  | some spec => decidable_of_iff (spec.Faithful metadata.arity)
      ⟨fun hf _ h' => Option.some.inj (h.symm.trans h') ▸ hf, fun hall => hall spec h⟩

/-- No two rows share a key. -/
def UniqueKeys (positions : List ℕ) (rows : Tuple → Prop) : Prop :=
  ∀ t u, rows t → rows u → t.select positions = u.select positions → t = u

/-! ## Which index serves a scan depends on the bound columns only -/

section Mask

variable {bindings bindings' : Bindings}

theorem isBound_congr (h : bindings.map Option.isSome = bindings'.map Option.isSome) (p : ℕ) :
    bindings.isBound p = bindings'.isBound p := by
  have hmask : ∀ b : Bindings, b.isBound p = ((b.map Option.isSome)[p]?).getD false := fun b => by
    rw [Bindings.isBound, getElem?_map]
    cases b[p]? with
    | none => rfl
    | some v => rfl
  rw [hmask, hmask, h]

theorem isSome_fullTupleBindingValues : ∀ bindings : Bindings,
    (fullTupleBindingValues bindings).isSome = (bindings.map Option.isSome).all id
  | [] => rfl
  | none :: _ => rfl
  | some v :: bindings => by
    rw [fullTupleBindingValues, Option.isSome_map, isSome_fullTupleBindingValues bindings]
    rfl

theorem naturalLeadingBoundCount_eq : ∀ bindings : Bindings,
    TupleStore.naturalLeadingBoundCount bindings =
      ((bindings.map Option.isSome).takeWhile id).length
  | [] => rfl
  | none :: _ => rfl
  | some _ :: bindings => congrArg Nat.succ (naturalLeadingBoundCount_eq bindings)

theorem scanIndex_congr (metadata : RelationMetadata)
    (h : bindings.map Option.isSome = bindings'.map Option.isSome) :
    metadata.scanIndex bindings = metadata.scanIndex bindings' := by
  have hlead : ∀ spec : TupleIndexSpec,
      spec.leadingBoundCount bindings = spec.leadingBoundCount bindings' := fun spec => by
    rw [TupleIndexSpec.leadingBoundCount, TupleIndexSpec.leadingBoundCount,
      funext (isBound_congr h)]
  rw [RelationMetadata.scanIndex, RelationMetadata.scanIndex, isSome_fullTupleBindingValues,
    isSome_fullTupleBindingValues, naturalLeadingBoundCount_eq, naturalLeadingBoundCount_eq, h]
  simp only [hlead]

end Mask

/-! ## The bindings of a key -/

section KeyBindings

variable {arity : ℕ} {positions : List ℕ}

theorem getElem?_foldl_set (f : ℕ → Option Value) (q : ℕ) : ∀ (positions : List ℕ)
    (bindings : Bindings),
    ((positions.map fun p => (p, f p)).foldl (fun b c => b.set c.1 c.2) bindings)[q]? =
      if q ∈ positions ∧ q < bindings.length then some (f q) else bindings[q]?
  | [], bindings => by simp
  | p :: positions, bindings => by
    rw [map_cons, foldl_cons, getElem?_foldl_set f q positions, length_set,
      getElem?_set]
    by_cases hq : q < bindings.length
    · by_cases hp : p = q
      · subst hp
        simp [hq]
      · simp [hq, hp, Ne.symm hp]
    have hnone : bindings[q]? = none := getElem?_eq_none (not_lt.mp hq)
    by_cases hp : p = q
    · subst hp
      simp [hq]
    · simp [hq, hp]

theorem getElem?_keyBindings (f : ℕ → Option Value) (q : ℕ) :
    (RelationState.keyBindings arity (positions.map fun p => (p, f p)))[q]? =
      if q < arity then some (if q ∈ positions then f q else none) else none := by
  rw [RelationState.keyBindings, getElem?_foldl_set, length_replicate,
    getElem?_replicate]
  split_ifs <;> simp_all

theorem length_keyBindings (columns : List (ℕ × Option Value)) :
    (RelationState.keyBindings arity columns).length = arity := by
  have hset : ∀ (columns : List (ℕ × Option Value)) (bindings : Bindings),
      (columns.foldl (fun b c => b.set c.1 c.2) bindings).length = bindings.length := by
    intro columns
    induction columns with
    | nil => exact fun _ => rfl
    | cons c columns ih => exact fun bindings => (ih _).trans length_set
  rw [RelationState.keyBindings, hset, length_replicate]

/-- A row matches the bindings of a key exactly when it has the key. -/
theorem matchesBindings_keyBindings {t u : Tuple} (hpos : ∀ p ∈ positions, p < arity)
    (ht : t.length = arity) (hu : u.length = arity) :
    u.matchesBindings (RelationState.keyBindings arity (positions.map fun p => (p, t[p]?))) = true ↔
      u.select positions = t.select positions := by
  rw [Tuple.matchesBindings_iff, TupleIndex.select_congr (hu ▸ hpos) (ht ▸ hpos)]
  constructor
  · intro h p hp
    have hlt : p < t.length := ht ▸ hpos p hp
    rw [getElem?_eq_getElem hlt]
    refine h p t[p] ?_
    rw [getElem?_keyBindings, if_pos (hpos p hp), if_pos hp, getElem?_eq_getElem hlt]
  intro h p w hp
  rw [getElem?_keyBindings] at hp
  split_ifs at hp with hlt hmem
  · rw [h p hmem, Option.some.inj hp]
  · cases Option.some.inj hp

theorem map_isSome_keyBindings {t : Tuple} (hpos : ∀ p ∈ positions, p < arity)
    (ht : t.length = arity) :
    (RelationState.keyBindings arity (positions.map fun p => (p, t[p]?))).map Option.isSome =
      (keyMask arity positions).map Option.isSome := by
  refine ext_getElem? fun q => ?_
  rw [getElem?_map, getElem?_map, keyMask, getElem?_keyBindings, getElem?_keyBindings]
  split_ifs with hq hmem
  · rw [getElem?_eq_getElem (ht ▸ hpos q hmem)]
    rfl
  · rfl
  · rfl

end KeyBindings

/-! ## Lookups -/

namespace RelationState

variable {M : Type → Type} [ByteMap M] {state : RelationState M} {positions : List ℕ} {t : Tuple}

theorem select_range {t : Tuple} {n : ℕ} (ht : t.length = n) : t.select (List.range n) = t := by
  subst ht
  refine ext_getElem? fun i => ?_
  rw [Tuple.getElem?_select fun p hp => mem_range.mp hp]
  by_cases hi : i < t.length
  · rw [getElem?_range hi, Option.bind_some]
  · have hrange : (List.range t.length)[i]? = none :=
      getElem?_eq_none (by rw [length_range]; exact not_lt.mp hi)
    rw [hrange, getElem?_eq_none (not_lt.mp hi)]
    rfl

/-- The first row of a list, as a lookup. -/
theorem head?_spec {rows : List Tuple} {P : Tuple → Prop} (h : ∀ u, u ∈ rows ↔ P u) :
    (∀ u, rows.head? = some u → P u) ∧ (rows.head? = none → ∀ u, ¬ P u) := by
  refine ⟨fun u hu => (h u).mp (mem_of_head? hu), fun hnone u hu => ?_⟩
  rw [head?_eq_none_iff] at hnone
  exact not_mem_nil (hnone ▸ (h u).mpr hu)

/-- **A lookup finds a row of the key if there is one.** -/
theorem Valid.tupleForKey_spec (h : state.Valid)
    (hpos : ∀ p ∈ positions, p < state.metadata.arity)
    (hfinds : state.metadata.FindsKeys positions) (ht : t.length = state.metadata.arity) :
    (∀ u, state.tupleForKey positions t = some u →
      u ∈ state.rows ∧ u.select positions = t.select positions) ∧
    (state.tupleForKey positions t = none →
      ∀ u, ¬ (u ∈ state.rows ∧ u.select positions = t.select positions)) := by
  unfold RelationMetadata.FindsKeys RelationMetadata.keyIndex at hfinds
  unfold tupleForKey
  split
  · next hnat =>
    -- the key is the whole row
    obtain rfl : positions = List.range state.metadata.arity := beq_iff_eq.mp hnat
    rw [TupleStore.tupleForValues_eq]
    have hselect : ∀ u, u ∈ state.rows ∧ u.select (List.range state.metadata.arity) =
        t.select (List.range state.metadata.arity) ↔ u = t ∧ t ∈ state.rows := by
      intro u
      constructor
      · rintro ⟨hu, hkey⟩
        rw [select_range (h.length_eq u hu), select_range ht] at hkey
        exact ⟨hkey, hkey ▸ hu⟩
      · rintro ⟨rfl, hu⟩
        exact ⟨hu, rfl⟩
    simp only [hselect]
    constructor
    · intro u hu
      split at hu
      · next hmem => exact ⟨(Option.some.inj hu).symm, hmem⟩
      · cases hu
    · rintro hnone u ⟨rfl, hu⟩
      rw [if_pos (show u ∈ state.tuples.rows from hu)] at hnone
      cases hnone
  · next hnat =>
    rw [if_neg hnat] at hfinds
    have hspecs : (state.indexForPositions positions).map TupleIndex.spec =
        state.metadata.secondaryIndexes.find? fun spec => spec.positions = positions := by
      rw [indexForPositions, ← h.specs, find?_map]
      rfl
    cases hindex : state.indexForPositions positions with
    | some index =>
      -- an index with exactly the key columns
      rw [hindex] at hspecs
      rw [← hspecs] at hfinds
      have hmem : index ∈ state.indexes := mem_of_find?_eq_some hindex
      obtain rfl : index.spec.positions = positions := by
        simpa using find?_some hindex
      have hind := h.indexes index hmem (hfinds _ rfl)
      have hbucket : ∀ u, u ∈ index.bucket (tupleKey index.spec.positions t) ↔
          u ∈ state.rows ∧ u.select index.spec.positions = t.select index.spec.positions :=
        fun u => by rw [hind.mem_bucket, TupleIndex.tupleKey_eq_iff]
      have hhead : index.tupleForKeyTuple t =
          (index.bucket (tupleKey index.spec.positions t)).list.head? := by
        rw [TupleIndex.tupleForKeyTuple, TupleIndex.bucket]
        cases ByteMap.get (tupleKey index.spec.positions t) index.entries with
        | none => rfl
        | some b => rfl
      dsimp only
      rw [hhead]
      exact head?_spec hbucket
    | none =>
      -- a scan by the key columns
      rw [hindex] at hspecs
      rw [← hspecs] at hfinds
      dsimp only [Option.map_none] at hfinds ⊢
      obtain ⟨out, hscan, -, hout⟩ := scan_faithful h (length_keyBindings _)
        (fun spec hspec => hfinds spec
          ((scanIndex_congr _ (map_isSome_keyBindings hpos ht)).symm.trans hspec))
      have hkey : ∀ u, u ∈ out ↔ u ∈ state.rows ∧ u.select positions = t.select positions := by
        intro u
        rw [hout]
        exact and_congr_right fun hu => matchesBindings_keyBindings hpos ht (h.length_eq u hu)
      rw [firstMatch, hscan]
      exact head?_spec hkey

/-- **A lookup finds the row of the key**, where rows have different keys. -/
theorem Valid.tupleForKey_eq_some (h : state.Valid)
    (hpos : ∀ p ∈ positions, p < state.metadata.arity)
    (hfinds : state.metadata.FindsKeys positions) (ht : t.length = state.metadata.arity)
    (hunique : UniqueKeys positions (· ∈ state.rows)) {u : Tuple} :
    state.tupleForKey positions t = some u ↔
      u ∈ state.rows ∧ u.select positions = t.select positions := by
  obtain ⟨hsome, hnone⟩ := h.tupleForKey_spec hpos hfinds ht
  refine ⟨hsome u, fun ⟨hu, hkey⟩ => ?_⟩
  rcases hfound : state.tupleForKey positions t with _ | v
  · exact absurd ⟨hu, hkey⟩ (hnone hfound u)
  obtain ⟨hv, hkey'⟩ := hsome v hfound
  exact congrArg some (hunique v u hv hu (hkey'.trans hkey.symm))

/-- The lookup by the values of the key is the lookup by a tuple that has them. -/
theorem tupleForProjectedKey_select (hpos : ∀ p ∈ positions, p < state.metadata.arity)
    (ht : t.length = state.metadata.arity) :
    state.tupleForProjectedKey positions (t.select positions) = state.tupleForKey positions t := by
  have hzip : positions.zip ((t.select positions).map some) =
      positions.map fun p => (p, t[p]?) := by
    rw [← ht] at hpos
    clear ht
    induction positions with
    | nil => rfl
    | cons p positions ih =>
      obtain ⟨hp, hps⟩ := forall_mem_cons.mp hpos
      rw [Tuple.select_cons hp, map_cons, zip_cons_cons, ih hps, map_cons,
        getElem?_eq_getElem hp]
  unfold tupleForProjectedKey tupleForKey
  split
  · next hnat =>
    obtain rfl : positions = List.range state.metadata.arity := beq_iff_eq.mp hnat
    rw [select_range ht]
  rw [hzip]
  rcases hindex : state.indexForPositions positions with _ | index
  · rfl
  obtain rfl : index.spec.positions = positions := by
    simpa using find?_some hindex
  rfl

end RelationState

end Mica
