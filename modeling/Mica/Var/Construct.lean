import Mica.Var.Tuple
import Mica.Lib.SortedList

/-!
# Var/Construct — the constructors of values

`Value::map` sorts its entries by key and keeps the last value of each key; `RelationValue::new`
sorts the heading, carries every row along, then sorts the rows and drops repeats.  Each constructor
returns a `Value`, so what it builds is canonical by construction.

`Value.induction` is the way back: every value is one of the constructors applied to smaller values,
with maps and relations already in canonical order.
-/

open SortedList List

namespace Mica

/-! ## Symbols are ordered by id -/

theorem Symbol.id_injective : Function.Injective fun s : Symbol => s.id.toNat := by
  intro a b h
  exact Symbol.cmp_eq_iff.mp (Nat.compare_eq_eq.mpr h)

instance : LinearOrder Symbol := LinearOrder.lift' (fun s : Symbol => s.id.toNat) Symbol.id_injective

theorem Symbol.lt_iff {a b : Symbol} : a < b ↔ a.cmp b = .lt := Nat.compare_eq_lt.symm

/-- Rows compare as the raw rows do. -/
theorem cmpValues_map_raw : ∀ a b : Tuple,
    cmpValues (a.map Value.raw) (b.map Value.raw) = compare a b
  | [], [] => rfl
  | [], _ :: _ => rfl
  | _ :: _, [] => rfl
  | v :: a, w :: b => by
    rw [List.map_cons, List.map_cons, cmpValues, cmpValues_map_raw, List.compare_cons_cons]
    rfl

private theorem compare_tuple_lt_iff : ∀ {a b : Tuple}, compare a b = .lt ↔ a < b
  | [], [] => iff_of_false (by decide) (lt_irrefl _)
  | [], _ :: _ => iff_of_true rfl List.Lex.nil
  | _ :: _, [] => iff_of_false (by simp [List.compare_cons_nil]) (List.not_lt_nil _)
  | v :: a, w :: b => by
    rw [List.compare_cons_cons, Ordering.then_eq_lt, compare_lt_iff_lt, compare_eq_iff_eq,
      compare_tuple_lt_iff, List.cons_lt_cons_iff]

theorem Tuple.lt_iff {a b : Tuple} :
    a < b ↔ cmpValues (a.map Value.raw) (b.map Value.raw) = .lt := by
  rw [cmpValues_map_raw, compare_tuple_lt_iff]

/-! ## Relation values -/

inductive RelationValueError where
  | headingTooWide (columns : ℕ)
  | duplicateColumn (column : Symbol)
  | arityMismatch (expected actual : ℕ)
  deriving DecidableEq

/-- An immutable finite relation with a named heading and a canonical set of rows. -/
structure RelationValue where
  heading : List Symbol
  rows : List Tuple
  width_le : heading.length ≤ maxHeading
  heading_sorted : heading.Pairwise (· < ·)
  row_arity : ∀ row ∈ rows, row.length = heading.length
  rows_sorted : rows.Pairwise (· < ·)

namespace RelationValue

theorem heading_sorted_nil : ([] : List Symbol).Pairwise (· < ·) := .nil

theorem rows_sorted_nil : ([] : List Tuple).Pairwise (· < ·) := .nil

/-- The columns in ascending order, each with its original position. -/
def columnOrder (heading : List Symbol) : List (Symbol × ℕ) :=
  heading.zipIdx.insertionSort fun a b => a.1 ≤ b.1

/-- The first column equal to the one after it. -/
def firstDuplicate : List Symbol → Option Symbol
  | [] => none
  | [_] => none
  | a :: b :: l => if a = b then some a else firstDuplicate (b :: l)

/-- Check each row's arity and put its cells in column order. -/
def alignRows (arity : ℕ) (order : List ℕ) : List Tuple → Except RelationValueError (List Tuple)
  | [] => .ok []
  | row :: rows =>
    if row.length = arity then
      (alignRows arity order rows).map (row.select order :: ·)
    else .error (.arityMismatch arity row.length)

/-- The rows as stored: left alone when already strictly ordered, else sorted without repeats. -/
def canonicalRows (rows : List Tuple) : List Tuple :=
  if rows.Pairwise (· < ·) then rows else sortDedup rows

theorem canonicalRows_eq (rows : List Tuple) : canonicalRows rows = sortDedup rows := by
  unfold canonicalRows
  split
  · next h => exact (sortDedup_eq_self h).symm
  · rfl

theorem pairwise_of_firstDuplicate : ∀ {l : List Symbol}, l.Pairwise (· ≤ ·) →
    firstDuplicate l = none → l.Pairwise (· < ·)
  | [], _, _ => List.Pairwise.nil
  | [_], _, _ => pairwise_singleton _ _
  | a :: b :: l, h, hd => by
    obtain ⟨ha, hl⟩ := pairwise_cons.mp h
    rw [firstDuplicate] at hd
    split at hd
    · cases hd
    rename_i hne
    have htail := pairwise_of_firstDuplicate hl hd
    refine pairwise_cons.mpr ⟨fun x hx => ?_, htail⟩
    have hab : a < b := lt_of_le_of_ne (ha b mem_cons_self) hne
    rcases mem_cons.mp hx with rfl | hx
    · exact hab
    · exact hab.trans ((pairwise_cons.mp htail).1 x hx)

theorem firstDuplicate_of_pairwise : ∀ {l : List Symbol}, l.Pairwise (· < ·) →
    firstDuplicate l = none
  | [], _ => rfl
  | [_], _ => rfl
  | a :: b :: l, h => by
    obtain ⟨ha, hl⟩ := pairwise_cons.mp h
    rw [firstDuplicate, if_neg (ha b mem_cons_self).ne, firstDuplicate_of_pairwise hl]

theorem columnOrder_perm (heading : List Symbol) : (columnOrder heading).Perm heading.zipIdx :=
  perm_insertionSort _ _

theorem columnOrder_pairwise (heading : List Symbol) :
    ((columnOrder heading).map Prod.fst).Pairwise (· ≤ ·) := by
  rw [pairwise_map]
  have htotal : Std.Total fun a b : Symbol × ℕ => a.1 ≤ b.1 := ⟨fun a b => le_total a.1 b.1⟩
  have htrans : IsTrans (Symbol × ℕ) fun a b => a.1 ≤ b.1 := ⟨fun _ _ _ => le_trans⟩
  exact pairwise_insertionSort _ _

theorem mem_columnOrder_lt {heading : List Symbol} {p : ℕ}
    (h : p ∈ (columnOrder heading).map Prod.snd) : p < heading.length := by
  obtain ⟨⟨s, q⟩, hmem, rfl⟩ := mem_map.mp h
  exact (mem_zipIdx' ((columnOrder_perm heading).mem_iff.mp hmem)).1

theorem length_columnOrder (heading : List Symbol) :
    (columnOrder heading).length = heading.length := by
  rw [(columnOrder_perm heading).length_eq, length_zipIdx]

theorem length_of_mem_alignRows {order : List ℕ} {arity : ℕ} (hlen : order.length = arity)
    (hlt : ∀ p ∈ order, p < arity) : ∀ {rows out : List Tuple},
      alignRows arity order rows = .ok out → ∀ row ∈ out, row.length = arity
  | [], out, h, row, hrow => by
    cases h
    cases hrow
  | r :: rows, out, h, row, hrow => by
    rw [alignRows] at h
    split at h
    · next hr =>
      rcases hrec : alignRows arity order rows with _ | out'
      · rw [hrec] at h; cases h
      rw [hrec] at h
      cases h
      rcases mem_cons.mp hrow with rfl | hrow
      · rw [Tuple.length_select fun p hp => hr ▸ hlt p hp, hlen]
      · exact length_of_mem_alignRows hlen hlt hrec row hrow
    · cases h

/-- `RelationValue::new`. -/
def new (heading : List Symbol) (rows : List Tuple) : Except RelationValueError RelationValue :=
  if hwide : heading.length ≤ maxHeading then
    let order := columnOrder heading
    match hdup : firstDuplicate (order.map Prod.fst) with
    | some column => .error (.duplicateColumn column)
    | none =>
      match halign : alignRows heading.length (order.map Prod.snd) rows with
      | .error e => .error e
      | .ok aligned => .ok {
          heading := order.map Prod.fst
          rows := canonicalRows aligned
          width_le := by rwa [length_map, length_columnOrder]
          heading_sorted := pairwise_of_firstDuplicate (columnOrder_pairwise heading) hdup
          row_arity := by
            intro row hrow
            rw [canonicalRows_eq, mem_sortDedup] at hrow
            rw [length_map, length_columnOrder]
            exact length_of_mem_alignRows (by rw [length_map, length_columnOrder])
              (fun _ => mem_columnOrder_lt) halign row hrow
          rows_sorted := by
            rw [canonicalRows_eq]
            exact pairwise_sortDedup aligned }
  else .error (.headingTooWide heading.length)

theorem columnOrder_of_pairwise {heading : List Symbol} (h : heading.Pairwise (· < ·)) :
    columnOrder heading = heading.zipIdx := by
  refine List.Pairwise.insertionSort_eq ?_
  have hfst : (heading.zipIdx.map Prod.fst).Pairwise (· < ·) := by rwa [zipIdx_map_fst]
  exact (pairwise_map.mp hfst).imp le_of_lt

theorem select_range (row : Tuple) : row.select (List.range row.length) = row := by
  refine ext_getElem? fun i => ?_
  rw [Tuple.getElem?_select (fun p hp => mem_range.mp hp)]
  rcases lt_or_ge i row.length with hi | hi
  · rw [getElem?_range hi]
    rfl
  · rw [getElem?_eq_none (by rwa [length_range]), getElem?_eq_none hi]
    rfl

theorem alignRows_range {arity : ℕ} : ∀ {rows : List Tuple}, (∀ row ∈ rows, row.length = arity) →
    alignRows arity (List.range arity) rows = .ok rows
  | [], _ => rfl
  | row :: rows, h => by
    obtain ⟨hrow, hrows⟩ := forall_mem_cons.mp h
    rw [alignRows, if_pos hrow, alignRows_range hrows, ← hrow, select_range]
    rfl

/-- **A canonical relation is rebuilt as it is.** -/
theorem new_eq_self (r : RelationValue) : new r.heading r.rows = .ok r := by
  have hfst : (columnOrder r.heading).map Prod.fst = r.heading := by
    rw [columnOrder_of_pairwise r.heading_sorted, zipIdx_map_fst]
  have hsnd : (columnOrder r.heading).map Prod.snd = List.range r.heading.length := by
    rw [columnOrder_of_pairwise r.heading_sorted, zipIdx_map_snd, range'_eq_map_range]
    simp
  have halign : alignRows r.heading.length ((columnOrder r.heading).map Prod.snd) r.rows
      = .ok r.rows := by
    rw [hsnd]
    exact alignRows_range r.row_arity
  have hdup : firstDuplicate ((columnOrder r.heading).map Prod.fst) = none := by
    rw [hfst]
    exact firstDuplicate_of_pairwise r.heading_sorted
  have hrows : canonicalRows r.rows = r.rows := if_pos r.rows_sorted
  unfold new
  rw [dif_pos r.width_le]
  simp only
  split
  · next column h => rw [hdup] at h; cases h
  split
  · next e h => rw [halign] at h; cases h
  · next aligned h =>
    rw [halign] at h
    cases h
    simp only [hfst, hrows]

end RelationValue

/-! ## The constructors -/

namespace Value

private theorem valuesCanonical_map_raw (vs : List Value) :
    valuesCanonical (vs.map Value.raw) = true := by
  refine valuesCanonical_iff.mpr fun v hv => ?_
  obtain ⟨w, -, rfl⟩ := mem_map.mp hv
  exact w.canonical

private theorem optionCanonical_map_raw (x : Option Value) :
    optionCanonical (x.map Value.raw) = true := by
  cases x with
  | none => rfl
  | some v => exact v.canonical

def bool (b : Bool) : Value := ⟨.bool b, rfl⟩

def int (i : Integer) : Value := ⟨.int i, rfl⟩

def float (f : FiniteF32) : Value := ⟨.float f, rfl⟩

def identity (i : Identity) : Value := ⟨.identity i, rfl⟩

def symbol (s : Symbol) : Value := ⟨.symbol s, rfl⟩

def errorCode (s : Symbol) : Value := ⟨.errorCode s, rfl⟩

def string (s : String) : Value := ⟨.string s, rfl⟩

def bytes (b : OrderCode.Bytes) : Value := ⟨.bytes b, rfl⟩

def capability (c : CapabilityId) : Value := ⟨.capability c, rfl⟩

def function (f : FunctionId) : Value := ⟨.function f, rfl⟩

/-- `Value::list`. -/
def list (vs : List Value) : Value := ⟨.list (vs.map Value.raw), valuesCanonical_map_raw vs⟩

/-- `Value::range`. -/
def range (start : Value) (stop : Option Value) : Value :=
  ⟨.range start.raw (stop.map Value.raw),
    Bool.and_eq_true_iff.mpr ⟨start.canonical, optionCanonical_map_raw stop⟩⟩

/-- `Value::error`. -/
def error (code : Symbol) (message : Option String) (value : Option Value) : Value :=
  ⟨.error code message (value.map Value.raw), optionCanonical_map_raw value⟩

/-- `Value::frob`. -/
def frob (delegate : Identity) (value : Value) : Value := ⟨.frob delegate value.raw, value.canonical⟩

/-- The raw entry of an entry. -/
def rawEntry (e : Value × Value) : RawValue × RawValue := (e.1.raw, e.2.raw)

/-- A map from entries that are already in canonical order. -/
def ofEntries (es : List (Value × Value)) (h : es.Pairwise fun e f => e.1 < f.1) : Value where
  raw := .map (es.map rawEntry)
  canonical := by
    rw [RawValue.isCanonical, Bool.and_eq_true, decide_eq_true_eq, entriesCanonical_iff,
      pairwise_map]
    refine ⟨fun e he => ?_, h⟩
    obtain ⟨f, -, rfl⟩ := mem_map.mp he
    exact ⟨f.1.canonical, f.2.canonical⟩

/-- `Value::map`. -/
def map (entries : List (Value × Value)) : Value :=
  ofEntries (canonicalEntries entries) (pairwise_canonicalEntries entries)

theorem map_eq_ofEntries {es : List (Value × Value)} (h : es.Pairwise fun e f => e.1 < f.1) :
    map es = ofEntries es h := by
  refine Value.ext ?_
  simp only [map, ofEntries, canonicalEntries_eq_self h]

/-- `Value::from(RelationValue)`. -/
def ofRelation (r : RelationValue) : Value where
  raw := .relation r.heading (r.rows.map fun row => row.map Value.raw)
  canonical := by
    simp only [RawValue.isCanonical, Bool.and_eq_true, decide_eq_true_eq, rowsCanonical_iff,
      forall_mem_map, length_map, pairwise_map]
    refine ⟨⟨⟨⟨r.width_le, ?_⟩, r.row_arity⟩, ?_⟩, fun _ _ v _ => v.canonical⟩
    · exact r.heading_sorted.imp Symbol.lt_iff.mp
    · exact r.rows_sorted.imp Tuple.lt_iff.mp

/-- `Value::relation`. -/
def relation (heading : List Symbol) (rows : List Tuple) : Except RelationValueError Value :=
  (RelationValue.new heading rows).map ofRelation

theorem relation_eq_self (r : RelationValue) : relation r.heading r.rows = .ok (ofRelation r) := by
  rw [relation, RelationValue.new_eq_self]
  rfl

/-! ## Every value is built by a constructor -/

private theorem exists_values {vs : List RawValue} (h : ∀ v ∈ vs, v.isCanonical = true) :
    ∃ ws : List Value, ws.map Value.raw = vs := by
  refine ⟨vs.attach.map fun v => ⟨v.1, h v.1 v.2⟩, ?_⟩
  rw [map_map]
  exact attach_map_subtype_val vs

private theorem exists_rows : ∀ {rows : List (List RawValue)},
    (∀ row ∈ rows, ∀ v ∈ row, v.isCanonical = true) →
      ∃ ts : List Tuple, ts.map (fun row => row.map Value.raw) = rows
  | [], _ => ⟨[], rfl⟩
  | row :: rows, h => by
    obtain ⟨hrow, hrows⟩ := forall_mem_cons.mp h
    obtain ⟨t, rfl⟩ := exists_values hrow
    obtain ⟨ts, rfl⟩ := exists_rows hrows
    exact ⟨t :: ts, rfl⟩

private theorem exists_entries : ∀ {es : List (RawValue × RawValue)},
    (∀ e ∈ es, e.1.isCanonical = true ∧ e.2.isCanonical = true) →
      ∃ fs : List (Value × Value), fs.map rawEntry = es
  | [], _ => ⟨[], rfl⟩
  | (k, v) :: es, h => by
    obtain ⟨⟨hk, hv⟩, hes⟩ := forall_mem_cons.mp h
    obtain ⟨fs, rfl⟩ := exists_entries hes
    exact ⟨(⟨k, hk⟩, ⟨v, hv⟩) :: fs, rfl⟩

private theorem exists_option {x : Option RawValue} (h : optionCanonical x = true) :
    ∃ y : Option Value, y.map Value.raw = x := by
  cases x with
  | none => exact ⟨none, rfl⟩
  | some v => exact ⟨some ⟨v, h⟩, rfl⟩

/-- **Induction on a value**, constructor by constructor: the entries of a map are in key order and
a relation is a `RelationValue`. -/
@[elab_as_elim]
theorem induction {P : Value → Prop} (v : Value)
    (bool : ∀ b, P (bool b)) (int : ∀ i, P (int i)) (float : ∀ f, P (float f))
    (identity : ∀ i, P (identity i)) (symbol : ∀ s, P (symbol s))
    (errorCode : ∀ s, P (errorCode s)) (string : ∀ s, P (string s)) (bytes : ∀ b, P (bytes b))
    (list : ∀ vs, (∀ v ∈ vs, P v) → P (list vs))
    (map : ∀ es h, (∀ e ∈ es, P e.1 ∧ P e.2) → P (ofEntries es h))
    (range : ∀ a x, P a → (∀ v ∈ x, P v) → P (range a x))
    (error : ∀ c m x, (∀ v ∈ x, P v) → P (error c m x))
    (capability : ∀ c, P (capability c)) (frob : ∀ d v, P v → P (frob d v))
    (function : ∀ f, P (function f))
    (relation : ∀ r, (∀ row ∈ r.rows, ∀ v ∈ row, P v) → P (ofRelation r)) : P v := by
  obtain ⟨raw, hraw⟩ := v
  induction raw with
  | bool b => exact bool b
  | int i => exact int i
  | float f => exact float f
  | identity i => exact identity i
  | symbol s => exact symbol s
  | errorCode s => exact errorCode s
  | string s => exact string s
  | bytes b => exact bytes b
  | capability c => exact capability c
  | function f => exact function f
  | list vs ih =>
    obtain ⟨ws, rfl⟩ := exists_values (valuesCanonical_iff.mp hraw)
    exact list ws fun w hw => ih w.raw (mem_map_of_mem hw) w.canonical
  | map es ih =>
    have hparts := hraw
    rw [RawValue.isCanonical, Bool.and_eq_true, entriesCanonical_iff, decide_eq_true_eq] at hparts
    obtain ⟨fs, rfl⟩ := exists_entries hparts.1
    have hsorted := hparts.2
    rw [pairwise_map] at hsorted
    refine map fs hsorted fun e he => ?_
    have hmem := ih (rawEntry e) (mem_map_of_mem he)
    exact ⟨hmem.1 e.1.canonical, hmem.2 e.2.canonical⟩
  | range a x iha ihx =>
    have hparts := hraw
    rw [RawValue.isCanonical, Bool.and_eq_true] at hparts
    obtain ⟨y, rfl⟩ := exists_option hparts.2
    exact range ⟨a, hparts.1⟩ y (iha hparts.1) fun w hw =>
      ihx w.raw (Option.mem_map_of_mem Value.raw hw) w.canonical
  | error c m x ih =>
    obtain ⟨y, rfl⟩ := exists_option hraw
    exact error c m y fun w hw => ih w.raw (Option.mem_map_of_mem Value.raw hw) w.canonical
  | frob d v ih => exact frob d ⟨v, hraw⟩ (ih hraw)
  | relation h rows ih =>
    have hparts := hraw
    simp only [RawValue.isCanonical, Bool.and_eq_true, decide_eq_true_eq,
      rowsCanonical_iff] at hparts
    obtain ⟨⟨⟨⟨hwide, hheading⟩, harity⟩, hsorted⟩, hcells⟩ := hparts
    obtain ⟨ts, rfl⟩ := exists_rows hcells
    refine relation ⟨h, ts, hwide, hheading.imp Symbol.lt_iff.mpr, ?_, ?_⟩ ?_
    · intro row hrow
      have := harity _ (mem_map_of_mem hrow)
      rwa [length_map] at this
    · exact (pairwise_map.mp hsorted).imp Tuple.lt_iff.mpr
    · intro row hrow w hw
      exact ih _ (mem_map_of_mem hrow) w.raw (mem_map_of_mem hw) w.canonical

end Value

end Mica
