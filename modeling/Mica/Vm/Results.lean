import Mica.Kernel.RelationAlgebra
import Mica.Lib.Collect
import Mica.Vm.Machine

/-!
# Vm/Results — what an instruction computes is of the kind and the type inferred for it

Given registers that hold what is known about them, the value of an operation has the inferred kind
(`operate_kind`) and matches the inferred type (`operate_type`).  A scan is the exception: its type
lists a column for each output, while the relation has one for each name (`scanType_matches_iff`).
-/

open SortedList List
open Except (ok.inj)
open Option (some.inj)

namespace Mica

/-! ## The contract of a value -/

theorem rowContracts_map_raw (heading : List Symbol) : ∀ rows : List Tuple,
    rowContracts heading (rows.map fun row => row.map Value.raw) =
      rows.map fun row => List.zipWith (fun name v => (name, valueContract v)) heading row
  | [] => rfl
  | row :: rows => by
    have hcells : ∀ (heading : List Symbol) (row : Tuple), cellContracts heading (row.map Value.raw) =
        List.zipWith (fun name v => (name, valueContract v)) heading row := by
      intro heading row
      induction row generalizing heading with
      | nil => cases heading <;> rfl
      | cons v row ih =>
        cases heading with
        | nil => rfl
        | cons name heading => exact congrArg _ (ih heading)
    exact congrArg₂ List.cons (hcells heading row) (rowContracts_map_raw heading rows)

theorem matchesRow_zipWith {heading : List Symbol} {contract : Value → TypeContract} : ∀ {row : Tuple},
    (∀ v ∈ row, (contract v).valueMatchesType v = true) →
      TypeContract.matchesRow (List.zipWith (fun name v => (name, contract v)) heading row)
        row = true := by
  intro row h
  induction row generalizing heading with
  | nil => cases heading <;> rfl
  | cons v row ih =>
    cases heading with
    | nil => rfl
    | cons name heading =>
      obtain ⟨hv, hrow⟩ := forall_mem_cons.mp h
      exact Bool.and_eq_true_iff.mpr ⟨hv, ih hrow⟩

theorem map_fst_zipWith {contract : Value → TypeContract} : ∀ {heading : List Symbol} {row : Tuple},
    row.length = heading.length →
      (List.zipWith (fun name v => (name, contract v)) heading row).map Prod.fst = heading
  | [], [], _ => rfl
  | _ :: _, _ :: _, h => congrArg _ (map_fst_zipWith (Nat.succ.inj h))

theorem matches_kind (v : Value) : (TypeContract.kind v.kind).valueMatchesType v = true :=
  decide_eq_true rfl

/-- A relation matches alternatives of its heading that its rows match, if it has so many rows. -/
theorem matches_relation {r : RelationValue} {alternatives : List (List (Symbol × TypeContract))}
    {min : ℕ}
    {max : Option ℕ} (hfirst : ∃ first ∈ alternatives.head?, r.heading = first.map Prod.fst)
    (hmin : min ≤ r.rows.length) (hmax : ∀ m ∈ max, r.rows.length ≤ m)
    (hrows : ∀ row ∈ r.rows, ∃ alternative ∈ alternatives,
      TypeContract.matchesRow alternative row = true) :
    (TypeContract.relation alternatives min max).valueMatchesType (.ofRelation r) = true := by
  obtain ⟨first, hhead, hheading⟩ := hfirst
  rw [TypeContract.valueMatchesType, Value.asRelation_ofRelation, Option.any_some]
  rw [Option.mem_def.mp hhead, Option.any_some]
  simp only [Bool.and_eq_true, decide_eq_true_eq, Option.all_eq_true, all_eq_true]
  exact ⟨⟨hmin, hmax⟩, hheading, fun row hrow => matchesAlternative_iff.mpr (hrows row hrow)⟩

/-- **A value matches its contract.** -/
theorem valueContract_matches (v : Value) : (valueContract v).valueMatchesType v = true := by
  induction v using Value.induction with
  | bool b => simp [valueContract, RawValue.contract, TypeContract.valueMatchesType,
      TypeLiteralContract.accepts, Value.bool, Value.asBool]
  | symbol s => simp [valueContract, RawValue.contract, TypeContract.valueMatchesType,
      TypeLiteralContract.accepts, Value.symbol, Value.asSymbol]
  | errorCode s => simp [valueContract, RawValue.contract, TypeContract.valueMatchesType,
      TypeLiteralContract.accepts, Value.errorCode, Value.asErrorCode]
  | relation r ih =>
    change (RawValue.contract (.relation r.heading
      (r.rows.map fun row => row.map Value.raw))).valueMatchesType _ = true
    rw [RawValue.contract, isEmpty_map, length_map, rowContracts_map_raw]
    split
    · next hempty =>
      obtain ⟨heading, rows, _, _, _, _⟩ := r
      obtain ⟨hheading, hrows⟩ := Bool.and_eq_true_iff.mp hempty
      obtain rfl := List.isEmpty_iff.mp hheading
      obtain rfl := List.isEmpty_iff.mp hrows
      exact decide_eq_true (p := _ = emptyRelation) rfl
    split
    · next hunit =>
      obtain ⟨hheading, hrows⟩ := Bool.and_eq_true_iff.mp hunit
      rw [TypeContract.valueMatchesType, TypeLiteralContract.accepts, Value.asRelation_ofRelation,
        Option.any_some, List.isEmpty_iff.mp hheading, beq_iff_eq.mp hrows]
      rfl
    refine matches_relation ?_ le_rfl (fun m hm => (some.inj hm).le) fun row hrow => ?_
    · cases hrows : r.rows with
      | nil => exact ⟨_, rfl, by simp [Function.comp_def]⟩
      | cons row rows =>
        refine ⟨_, rfl, ?_⟩
        have hlen := r.row_arity row (hrows ▸ mem_cons_self)
        exact (map_fst_zipWith hlen).symm
    have hne : r.rows.isEmpty = false := by
      cases hrows : r.rows with
      | nil => exact absurd (hrows ▸ hrow) not_mem_nil
      | cons => rfl
    rw [hne]
    exact ⟨_, mem_map_of_mem hrow, matchesRow_zipWith fun v hv => ih row hrow v hv⟩
  | _ => exact matches_kind _

/-! ## The kind of a contract -/

namespace Value

variable {v : Value}

theorem kind_of_raw {raw : RawValue} (h : v.raw = raw) : v.kind = raw.kind := congrArg RawValue.kind h

theorem kind_of_asBool {b : Bool} (h : v.asBool = some b) : v.kind = .bool := by
  unfold asBool at h
  split at h
  · next hraw => exact kind_of_raw hraw
  · cases h

theorem kind_of_asSymbol {s : Symbol} (h : v.asSymbol = some s) : v.kind = .symbol := by
  unfold asSymbol at h
  split at h
  · next hraw => exact kind_of_raw hraw
  · cases h

theorem kind_of_asErrorCode {s : Symbol} (h : v.asErrorCode = some s) : v.kind = .errorCode := by
  unfold asErrorCode at h
  split at h
  · next hraw => exact kind_of_raw hraw
  · cases h

theorem kind_of_asInteger {i : Integer} (h : v.asInteger = some i) : v.kind = .int := by
  unfold asInteger at h
  split at h
  · next hraw => exact kind_of_raw hraw
  · cases h

theorem kind_of_asFloat {f : FiniteF32} (h : v.asFloat = some f) : v.kind = .float := by
  unfold asFloat at h
  split at h
  · next hraw => exact kind_of_raw hraw
  · cases h

theorem kind_of_asList {vs : List Value} (h : v.asList = some vs) : v.kind = .list := by
  unfold asList at h
  split at h
  · next hraw => exact kind_of_raw hraw
  · cases h

theorem kind_of_asMap {es : List (Value × Value)} (h : v.asMap = some es) : v.kind = .map := by
  unfold asMap at h
  split at h
  · next hraw => exact kind_of_raw hraw
  · cases h

theorem kind_of_asRelation {r : RelationValue} (h : v.asRelation = some r) : v.kind = .relation := by
  rw [asRelation_eq_some.mp h]
  rfl

end Value

/-- The kind of a literal. -/
theorem TypeLiteralContract.kind_of_accepts {l : TypeLiteralContract} {v : Value} {k : ValueKind}
    (h : l.accepts v = true) (hk : (TypeContract.literal l).exactOuterKind = some k) : v.kind = k := by
  cases l with
  | bool b => exact (Value.kind_of_asBool (of_decide_eq_true h)).trans (some.inj hk)
  | symbol s => exact (Value.kind_of_asSymbol (of_decide_eq_true h)).trans (some.inj hk)
  | errorCode s => exact (Value.kind_of_asErrorCode (of_decide_eq_true h)).trans (some.inj hk)
  | unit =>
    obtain ⟨r, hr, -⟩ := Option.any_eq_true _ _ |>.mp h
    exact (Value.kind_of_asRelation hr).trans (some.inj hk)
  | emptyRelation =>
    obtain rfl : v = Mica.emptyRelation := of_decide_eq_true h
    exact some.inj hk

namespace TypeContract

variable {v : Value}

theorem mem_outerKinds_head {t : TypeContract} {types : List TypeContract}
    (h : t.valueMatchesType v = true) : exactOuterKind t ∈ outerKinds (t :: types) := by
  cases t with
  | never => exact nomatch h
  | _ => exact mem_cons_self

theorem mem_outerKinds_tail {t : TypeContract} {types : List TypeContract} {o : Option ValueKind}
    (h : o ∈ outerKinds types) : o ∈ outerKinds (t :: types) := by
  cases t with
  | never => exact h
  | _ => exact mem_cons_of_mem _ h

mutual

/-- **What matches a contract is of its kind.** -/
theorem kind_of_matches : ∀ {t : TypeContract} {k : ValueKind}, t.valueMatchesType v = true →
    t.exactOuterKind = some k → v.kind = k
  | dynamic, _, _, hk => nomatch hk
  | never, _, _, hk => nomatch hk
  | kind _, _, h, hk => (of_decide_eq_true h).trans (some.inj hk)
  | literal l, _, h, hk => l.kind_of_accepts h hk
  | union types, _, h, hk => by
    obtain ⟨o, ho, hkind⟩ := kinds_of_matches h
    rw [exactOuterKind] at hk
    split at hk
    · next first kinds houter =>
      split at hk
      · next hall =>
        obtain rfl := some.inj hk
        rw [houter] at ho
        refine hkind _ ?_
        rcases mem_cons.mp ho with rfl | ho
        · rfl
        · exact of_decide_eq_true (all_eq_true.mp hall o ho)
      · cases hk
    · cases hk
  | relation _ _ _, _, h, hk => by
    obtain ⟨r, hr, -⟩ := Option.any_eq_true _ _ |>.mp h
    exact (Value.kind_of_asRelation hr).trans (some.inj hk)
termination_by structural t => t

theorem kinds_of_matches : ∀ {types : List TypeContract}, matchesAny types v = true →
    ∃ o ∈ outerKinds types, ∀ k, o = some k → v.kind = k
  | t :: types, h => by
    rcases Bool.or_eq_true_iff.mp h with h | h
    · exact ⟨_, mem_outerKinds_head h, fun k hk => kind_of_matches h hk⟩
    · obtain ⟨o, ho, hkind⟩ := kinds_of_matches h
      exact ⟨o, mem_outerKinds_tail ho, hkind⟩
termination_by structural types => types

end

end TypeContract

/-! ## The kinds of results -/

namespace Vm

theorem mapError_eq_ok {ε ε' α : Type} {g : ε → ε'} {x : Except ε α} {a : α} :
    x.mapError g = .ok a ↔ x = .ok a := by
  cases x with
  | error e => exact iff_of_false nofun nofun
  | ok b => exact ⟨fun h => congrArg _ (ok.inj h), fun h => congrArg _ (ok.inj h)⟩

theorem elim_error_eq_ok {ε α : Type} {o : Option α} {e : ε} {a : α} :
    o.elim (.error e) .ok = Except.ok a ↔ o = some a := by
  cases o with
  | none => exact iff_of_false nofun nofun
  | some b => exact ⟨fun h => congrArg _ (ok.inj h), fun h => congrArg _ (some.inj h)⟩

theorem map_eq_ok {ε α β : Type} {g : α → β} {x : Except ε α} {b : β} :
    x.map g = .ok b ↔ ∃ a, x = .ok a ∧ g a = b := by
  cases x with
  | error e => exact iff_of_false nofun fun ⟨_, h, _⟩ => nomatch h
  | ok a => exact ⟨fun h => ⟨a, rfl, ok.inj h⟩, fun ⟨_, h, h'⟩ => ok.inj h ▸ congrArg _ h'⟩

theorem bind_eq_ok {ε α β : Type} {g : α → Except ε β} {x : Except ε α} {b : β} :
    x >>= g = .ok b ↔ ∃ a, x = .ok a ∧ g a = .ok b := by
  cases x with
  | error e => exact iff_of_false nofun fun ⟨_, h, _⟩ => nomatch h
  | ok a => exact ⟨fun h => ⟨a, rfl, h⟩, fun ⟨_, h, h'⟩ => ok.inj h ▸ h'⟩

section Kinds

variable {P : Primitives} {M : Machine} {host : Host} {f : Frame} {left right v : Value}
  {k : ValueKind}

theorem kind_checkedNeg (h : checkedNeg P left = some v) : v.kind = left.kind := by
  unfold checkedNeg at h
  split at h
  · next i hi =>
    obtain ⟨j, -, rfl⟩ := Option.map_eq_some_iff.mp h
    exact (Value.kind_of_asInteger hi).symm
  · obtain ⟨x, hx, rfl⟩ := Option.map_eq_some_iff.mp h
    obtain ⟨y, hy, -⟩ := Option.bind_eq_some_iff.mp hx
    exact (Value.kind_of_asFloat hy).symm

/-- Arithmetic is of two operands of one kind, and so is its result. -/
theorem kind_checkedArithmetic {op : BinaryOp} (h : checkedArithmetic P op left right = some v) :
    v.kind = left.kind := by
  unfold checkedArithmetic at h
  split at h
  · next a b ha hb =>
    obtain ⟨j, -, rfl⟩ := Option.map_eq_some_iff.mp h
    exact (Value.kind_of_asInteger ha).symm
  · split at h
    · next a b ha hb =>
      obtain ⟨x, -, rfl⟩ := Option.map_eq_some_iff.mp h
      exact (Value.kind_of_asFloat ha).symm
    · cases h
  · cases h

theorem kind_evalArithmetic {op : BinaryOp} {message : String}
    (h : evalArithmetic P op message left right = .ok v) : v.kind = left.kind := by
  unfold evalArithmetic at h
  split at h
  · next hv =>
    obtain rfl := ok.inj h
    exact kind_checkedArithmetic hv
  · split at h <;> exact nomatch h

/-- The operations whose result is a number. -/
def BinaryOp.IsArithmetic : BinaryOp → Prop
  | .add | .sub | .mul | .div | .rem => True
  | _ => False

theorem kind_evalBinary {op : BinaryOp} (hop : op.IsArithmetic)
    (h : evalBinary P op left right = .ok v) : v.kind = left.kind := by
  cases op with
  | add | sub | mul => exact kind_evalArithmetic h
  | div | rem =>
    unfold evalBinary at h
    dsimp only at h
    split at h
    · cases h
    exact kind_evalArithmetic h
  | _ => exact hop.elim

theorem left_of_inferNumericResultKind {op : BinaryOp} (hop : op.IsArithmetic) {l r : Option ValueKind}
    (h : inferNumericResultKind op l r = some k) : l = some k := by
  unfold inferNumericResultKind at h
  split at h
  · next left right =>
    split at h
    · next hsame =>
      cases op with
      | div =>
        dsimp only at h
        split at h
        · cases h
        rename_i hint
        rw [hsame.2.resolve_left hint, some.inj h]
      | add | sub | mul | rem => exact h
      | _ => exact hop.elim
    · cases h
  · cases h

theorem kind_of_arithmetic {facts : Register → Option ValueKind} {registers : Register → Value}
    (hknown : ∀ r, ∀ k ∈ facts r, (registers r).kind = k) {l r : Register} (op : BinaryOp)
    (hop : op.IsArithmetic) (h : evalBinary P op (registers l) (registers r) = .ok v)
    (hk : inferNumericResultKind op (facts l) (facts r) = some k) : v.kind = k :=
  (kind_evalBinary hop h).trans (hknown l k (left_of_inferNumericResultKind hop hk))

theorem kind_indexSet {collection index value : Value} (h : indexSet collection index value = some v) :
    v.kind = collection.kind := by
  unfold indexSet at h
  split at h
  · next vs hvs =>
    obtain ⟨i, -, h⟩ := Option.bind_eq_some_iff.mp h
    split at h
    · obtain rfl := some.inj h
      exact (Value.kind_of_asList hvs).symm
    · cases h
  · obtain ⟨es, hes, rfl⟩ := Option.map_eq_some_iff.mp h
    exact (Value.kind_of_asMap hes).symm

theorem kind_errorFieldCode {error : Value} (h : errorFieldValue P error .code = .ok v) :
    v.kind = .errorCode := by
  unfold errorFieldValue at h
  split at h
  · obtain rfl := ok.inj h
    rfl
  · split at h
    · obtain rfl := ok.inj h
      rfl
    · cases h

theorem exists_of_relation {heading : List Symbol} {rows : List Tuple}
    (h : Value.relation heading rows = .ok v) :
    ∃ r, RelationValue.new heading rows = .ok r ∧ v = .ofRelation r := by
  obtain ⟨r, hr, rfl⟩ := map_eq_ok.mp h
  exact ⟨r, hr, rfl⟩

theorem kind_queryRelation {rows : List Tuple} {outputs : List QueryBinding} {arity : ℕ}
    (h : queryRelation rows outputs arity = .ok v) : v.kind = .relation := by
  unfold queryRelation at h
  split at h
  · cases h
  obtain ⟨r, -, rfl⟩ := exists_of_relation (mapError_eq_ok.mp h)
  rfl

/-- **The result of an operation is of the kind that is inferred.** -/
theorem operate_kind {facts : Register → Option ValueKind}
    (hknown : ∀ r, ∀ k ∈ facts r, (f.registers r).kind = k) {operation : Operation}
    (h : operate M host f operation = .ok v) (hk : inferOperationKind facts operation = some k) :
    v.kind = k := by
  cases operation with
  | load value =>
    obtain rfl := ok.inj h
    exact some.inj hk
  | move src =>
    obtain rfl := ok.inj h
    exact hknown src k hk
  | unary op src =>
    have h := mapError_eq_ok.mp h
    cases op with
    | not =>
      obtain rfl := ok.inj h
      exact some.inj hk
    | neg =>
      rw [kind_checkedNeg (elim_error_eq_ok.mp h)]
      exact hknown src k (Option.filter_eq_some_iff.mp hk).1
  | binary op l r =>
    have h := mapError_eq_ok.mp h
    cases op with
    | eq | ne | lt | le | gt | ge =>
      obtain rfl := ok.inj h
      exact some.inj hk
    | add => exact kind_of_arithmetic hknown .add trivial h hk
    | sub => exact kind_of_arithmetic hknown .sub trivial h hk
    | mul => exact kind_of_arithmetic hknown .mul trivial h hk
    | div => exact kind_of_arithmetic hknown .div trivial h hk
    | rem => exact kind_of_arithmetic hknown .rem trivial h hk
  | buildList items =>
    rw [operate] at h
    split at h
    · obtain rfl := ok.inj h
      exact some.inj hk
    · cases h
  | buildRelation heading cells rowCount =>
    obtain ⟨r, -, rfl⟩ := exists_of_relation (mapError_eq_ok.mp h)
    exact some.inj hk
  | buildMap items =>
    obtain ⟨es, -, rfl⟩ := map_eq_ok.mp h
    exact some.inj hk
  | buildRange start stop =>
    obtain rfl := ok.inj h
    exact some.inj hk
  | setIndex collection index value =>
    rw [kind_indexSet (elim_error_eq_ok.mp (mapError_eq_ok.mp h))]
    exact hknown collection k (Option.filter_eq_some_iff.mp hk).1
  | errorField error field =>
    cases field with
    | code =>
      rw [kind_errorFieldCode (mapError_eq_ok.mp h)]
      rw [inferOperationKind] at hk
      split at hk
      · exact some.inj hk
      · cases hk
    | message | value => exact nomatch hk
  | collectionLen collection =>
    obtain rfl := ok.inj h
    exact some.inj hk
  | scanExists relation bindings =>
    obtain ⟨rows, -, h⟩ := bind_eq_ok.mp h
    obtain rfl := ok.inj h
    exact some.inj hk
  | scanBindings relation bindings outputs =>
    obtain ⟨rows, -, h⟩ := bind_eq_ok.mp h
    exact (kind_queryRelation h).trans (some.inj hk)
  | builtinCall name resultKind args =>
    obtain ⟨args, -, h⟩ := bind_eq_ok.mp h
    obtain ⟨value, -, h⟩ := bind_eq_ok.mp h
    obtain rfl : resultKind = some k := hk
    rw [validateBuiltinResult] at h
    split at h
    · next hkind =>
      obtain rfl := ok.inj h
      exact hkind
    · cases h
  | relationPattern | relationCell | query => exact nomatch hk

end Kinds

/-! ## The types of results -/

section Types

variable {M : Machine} {host : Host} {f : Frame} {v : Value} {facts : Register → Option TypeContract}

theorem operandType_matches (hknown : ∀ r, ∀ t ∈ facts r, t.valueMatchesType (f.registers r) = true)
    {operand : Operand} {t : TypeContract} (h : operandType facts operand = some t) :
    t.valueMatchesType (f.resolve operand) = true := by
  cases operand with
  | register r => exact hknown r t h
  | value v =>
    obtain rfl := some.inj h
    exact valueContract_matches v

theorem getElem?_chunksExact {α : Type} {arity : ℕ} {cells : List α} {row position : ℕ}
    {chunk : List α}
    (h : (chunksExact arity cells)[row]? = some chunk) (hposition : position < arity) :
    chunk[position]? = cells[row * arity + position]? := by
  rw [chunksExact, getElem?_map] at h
  obtain ⟨n, hn, rfl⟩ := Option.map_eq_some_iff.mp h
  obtain ⟨hlt, rfl⟩ := List.getElem?_eq_some_iff.mp hn
  rw [getElem_range, getElem?_take_of_lt hposition, getElem?_drop]

/-- Cells that are put into the order of their columns match the contracts in that order. -/
theorem matchesRow_select {row : Tuple} {R : Symbol × ℕ → Symbol × TypeContract → Prop} :
    ∀ {order : List (Symbol × ℕ)} {alternative : List (Symbol × TypeContract)},
    List.Forall₂ R order alternative →
    (∀ column ∈ order, ∀ contract, R column contract → contract.1 = column.1 ∧
      ∃ v, row[column.2]? = some v ∧ contract.2.valueMatchesType v = true) →
    TypeContract.matchesRow alternative (row.select (order.map Prod.snd)) = true ∧
      alternative.map Prod.fst = order.map Prod.fst
  | [], [], _, _ => ⟨rfl, rfl⟩
  | column :: order, contract :: alternative, h, hcell => by
    obtain ⟨hhere, hrest⟩ := forall₂_cons.mp h
    obtain ⟨hcolumn, hcells⟩ := forall_mem_cons.mp hcell
    obtain ⟨hname, v, hv, hmatch⟩ := hcolumn contract hhere
    obtain ⟨hrow, hnames⟩ := matchesRow_select hrest hcells
    obtain ⟨hlt, rfl⟩ := List.getElem?_eq_some_iff.mp hv
    rw [map_cons, Tuple.select_cons hlt]
    exact ⟨Bool.and_eq_true_iff.mpr ⟨hmatch, hrow⟩, congrArg₂ List.cons hname hnames⟩

/-- The columns of the `n`-th row of a literal are of its cells. -/
theorem literalRow_matches (hknown : ∀ r, ∀ t ∈ facts r, t.valueMatchesType (f.registers r) = true)
    {heading : List Symbol} {cells : List Operand} {n : ℕ} {alternative : List (Symbol × TypeContract)}
    (h : literalRow facts heading cells n = some alternative) {row : Tuple}
    (hrow : ∀ position < heading.length, row[position]? =
      (cells.map f.resolve)[n * heading.length + position]?) :
    TypeContract.matchesRow alternative
        (row.select ((RelationValue.columnOrder heading).map Prod.snd)) = true ∧
      alternative.map Prod.fst = (RelationValue.columnOrder heading).map Prod.fst := by
  refine matchesRow_select (Collect.mapM_eq_some.mp h) fun column hcolumn contract hcontract => ?_
  obtain ⟨cell, hcell, hcontract⟩ := Option.bind_eq_some_iff.mp hcontract
  obtain ⟨t, ht, hcontract⟩ := Option.bind_eq_some_iff.mp hcontract
  obtain rfl := some.inj hcontract
  have hposition := RelationValue.mem_columnOrder_lt (mem_map_of_mem (f := Prod.snd) hcolumn)
  refine ⟨rfl, f.resolve cell, ?_, operandType_matches hknown ht⟩
  rw [hrow column.2 hposition, getElem?_map, hcell]
  rfl

theorem resolve_of_constants {cells : List Operand} {values : List Value}
    (h : constants cells = some values) : cells.map f.resolve = values := by
  have hsame : List.Forall₂ Eq (cells.map f.resolve) values := by
    refine forall₂_map_left_iff.mpr ((Collect.mapM_eq_some.mp h).imp fun cell v hv => ?_)
    cases cell with
    | register r => exact nomatch hv
    | value w => exact some.inj hv
  rwa [forall₂_eq_eq_eq] at hsame

theorem length_sortDedup_le (rows : List Tuple) : (sortDedup rows).length ≤ rows.length :=
  (subperm_of_subset ((pairwise_sortDedup rows).imp ne_of_lt) fun _ => mem_sortDedup.mp).length_le

theorem one_le_length_sortDedup {rows : List Tuple} (h : rows ≠ []) : 1 ≤ (sortDedup rows).length := by
  obtain ⟨row, rest, rfl⟩ := exists_cons_of_ne_nil h
  exact length_pos_of_mem (mem_sortDedup.mpr mem_cons_self)

/-- The rows of a literal. -/
def literalRows (heading : List Symbol) (cells : List Value) (rowCount : ℕ) : List Tuple :=
  if heading.length = 0 then List.replicate rowCount [] else chunksExact heading.length cells

theorem length_literalRows {heading : List Symbol} {cells : List Value} {rowCount : ℕ}
    (hcells : cells.length = heading.length * rowCount) :
    (literalRows heading cells rowCount).length = rowCount := by
  unfold literalRows
  split
  · exact length_replicate
  · next hne =>
    rw [chunksExact, length_map, length_range, hcells]
    exact Nat.mul_div_cancel_left _ (Nat.pos_of_ne_zero hne)

theorem getElem?_literalRows {heading : List Symbol} {cells : List Value} {rowCount n position : ℕ}
    {row : Tuple} (h : (literalRows heading cells rowCount)[n]? = some row)
    (hposition : position < heading.length) :
    row[position]? = cells[n * heading.length + position]? := by
  unfold literalRows at h
  rw [if_neg (Nat.ne_zero_of_lt hposition)] at h
  exact getElem?_chunksExact h hposition

/-- A relation without columns has one row at most. -/
theorem length_rows_le_one {r : RelationValue} (h : r.heading.length = 0) : r.rows.length ≤ 1 := by
  have hnil : ∀ row ∈ r.rows, row = [] := fun row hrow => length_eq_zero_iff.mp
    ((r.row_arity row hrow).trans h)
  have hsorted := r.rows_sorted
  match hrows : r.rows with
  | [] => exact Nat.zero_le 1
  | [_] => exact le_rfl
  | a :: b :: rest =>
    rw [hrows] at hnil hsorted
    have hlt := (pairwise_cons.mp hsorted).1 b mem_cons_self
    rw [hnil a mem_cons_self, hnil b (mem_cons_of_mem _ mem_cons_self)] at hlt
    exact absurd hlt (lt_irrefl _)

section Literal

variable {heading : List Symbol} {cells : List Operand} {rowCount : ℕ} {r : RelationValue}

/-- The bounds of a literal are of the relation that it builds. -/
theorem literalBounds_spec (hcells : cells.length = heading.length * rowCount) (hnodup : heading.Nodup)
    (hr : RelationValue.new heading (literalRows heading (cells.map f.resolve) rowCount) = .ok r) :
    (literalBounds heading cells rowCount).1 ≤ r.rows.length ∧
      r.rows.length ≤ (literalBounds heading cells rowCount).2 := by
  obtain ⟨hheading, hrows, -⟩ := RelationValue.of_new_eq_ok hr
  have hlength : (literalRows heading (cells.map f.resolve) rowCount).length = rowCount :=
    length_literalRows (by rw [length_map, hcells])
  have hcolumns : r.heading.length = heading.length := by
    rw [hheading, length_map, RelationValue.length_columnOrder]
  have hcount := RelationValue.length_rows_of_new hr (hcolumns ▸ r.width_le) hnodup
  have hle : r.rows.length ≤ rowCount := by
    rw [hcount]
    exact (length_sortDedup_le _).trans_eq hlength
  have hpos : rowCount ≠ 0 → 1 ≤ r.rows.length := fun hne => by
    rw [hcount]
    refine one_le_length_sortDedup (ne_nil_of_length_pos ?_)
    rw [hlength]
    exact Nat.pos_of_ne_zero hne
  unfold literalBounds
  split
  · next hnone =>
    rcases hnone with hnone | rfl
    · have hone := length_rows_le_one (hcolumns.trans hnone)
      dsimp only
      omega
    · exact ⟨by simp, hle.trans (Nat.zero_le _)⟩
  rename_i hsome
  obtain ⟨harity, hne⟩ := not_or.mp hsome
  split
  · next values hvalues =>
    rw [hcount, literalRows, if_neg harity, resolve_of_constants hvalues]
    exact ⟨le_rfl, le_rfl⟩
  · exact ⟨hpos hne, hle⟩

/-- Every row of a literal matches its alternative. -/
theorem exists_alternative (hknown : ∀ r, ∀ t ∈ facts r, t.valueMatchesType (f.registers r) = true)
    (hcells : cells.length = heading.length * rowCount)
    {alternatives : List (List (Symbol × TypeContract))}
    (h : (List.range rowCount).mapM (literalRow facts heading cells) = some alternatives) {n : ℕ}
    (hn : n < rowCount) :
    ∃ row alternative, (literalRows heading (cells.map f.resolve) rowCount)[n]? = some row ∧
      alternatives[n]? = some alternative ∧ TypeContract.matchesRow alternative
        (row.select ((RelationValue.columnOrder heading).map Prod.snd)) = true ∧
      alternative.map Prod.fst = (RelationValue.columnOrder heading).map Prod.fst := by
  have hcollected := Collect.mapM_eq_some.mp h
  have hlength : (literalRows heading (cells.map f.resolve) rowCount).length = rowCount :=
    length_literalRows (by rw [length_map, hcells])
  have hlength' : alternatives.length = rowCount :=
    hcollected.length_eq.symm.trans length_range
  have hget := getElem?_eq_getElem (hlength.symm ▸ hn :
    n < (literalRows heading (cells.map f.resolve) rowCount).length)
  have hliteral := hcollected.get (length_range.symm ▸ hn) (hlength'.symm ▸ hn)
  rw [get_eq_getElem, get_eq_getElem, getElem_range] at hliteral
  exact ⟨_, _, hget, getElem?_eq_getElem _, literalRow_matches hknown hliteral
    fun position => getElem?_literalRows hget⟩

/-- **A relation literal builds a relation of its type.** -/
theorem literalType_matches (hknown : ∀ r, ∀ t ∈ facts r, t.valueMatchesType (f.registers r) = true)
    {t : TypeContract} (hcells : cells.length = heading.length * rowCount) (hnodup : heading.Nodup)
    (h : literalType facts heading cells rowCount = some t)
    (hv : relationLiteral heading (cells.map f.resolve) rowCount = .ok v) :
    t.valueMatchesType v = true := by
  obtain ⟨r, hr, rfl⟩ := exists_of_relation (mapError_eq_ok.mp hv)
  change RelationValue.new heading (literalRows heading (cells.map f.resolve) rowCount) = .ok r at hr
  obtain ⟨hheading, hrows, -⟩ := RelationValue.of_new_eq_ok hr
  have hlength : (literalRows heading (cells.map f.resolve) rowCount).length = rowCount :=
    length_literalRows (by rw [length_map, hcells])
  obtain ⟨hmin, hmax⟩ := literalBounds_spec hcells hnodup hr
  obtain ⟨alternatives, halternatives, rfl⟩ := Option.map_eq_some_iff.mp h
  unfold literalAlternatives at halternatives
  split at halternatives
  · next hzero =>
    obtain rfl := some.inj halternatives
    refine matches_relation ⟨_, rfl, ?_⟩ hmin (fun m hm => some.inj hm ▸ hmax) fun row hrow => ?_
    · rw [hheading, map_map]
      rfl
    · rw [hrows, eq_nil_of_length_eq_zero (hlength.trans hzero)] at hrow
      cases hrow
  rename_i hne
  refine matches_relation ?_ hmin (fun m hm => some.inj hm ▸ hmax) fun row hrow => ?_
  · obtain ⟨-, first, -, hfirst, -, hnames⟩ :=
      exists_alternative hknown hcells halternatives (Nat.pos_of_ne_zero hne)
    exact ⟨first, head?_eq_getElem? ▸ hfirst, hheading.trans hnames.symm⟩
  rw [hrows, mem_sortDedup, mem_map] at hrow
  obtain ⟨row, hrow, rfl⟩ := hrow
  obtain ⟨n, hn, hget⟩ := mem_iff_getElem.mp hrow
  obtain ⟨row', alternative, hget', halternative, hmatch, -⟩ :=
    exists_alternative hknown hcells halternatives (hlength ▸ hn)
  obtain rfl : row = row' := by
    rw [getElem?_eq_getElem hn, hget] at hget'
    exact some.inj hget'
  exact ⟨alternative, mem_of_getElem? halternative, hmatch⟩

end Literal

section Scan

variable {outputs : List QueryBinding} {rows : List Tuple} {arity : ℕ}

/-- The columns of a query are the names of its outputs. -/
theorem mem_queryColumns {c : Symbol} : ∀ {outputs : List QueryBinding} {columns : List (Symbol × ℕ)},
    c ∈ (queryColumns columns outputs).1.map Prod.fst ↔
      c ∈ columns.map Prod.fst ∨ c ∈ outputs.map QueryBinding.name
  | [], columns => by simp [queryColumns]
  | output :: outputs, columns => by
    rw [queryColumns, map_cons, mem_cons]
    cases hfind : columns.find? fun column => column.1 = output.name with
    | some column =>
      have hpred := find?_some hfind
      have hname : output.name ∈ columns.map Prod.fst :=
        of_decide_eq_true hpred ▸ mem_map_of_mem (mem_of_find?_eq_some hfind)
      dsimp only
      rw [mem_queryColumns]
      refine or_congr_right' fun hnot => (or_iff_right_of_imp ?_).symm
      rintro rfl
      exact absurd hname hnot
    | none =>
      dsimp only
      rw [mem_queryColumns, map_append, mem_append, or_assoc]
      simp

theorem matchesRow_dynamic : ∀ {columns : List (Symbol × TypeContract)} {row : Tuple},
    (∀ e ∈ columns, e.2 = .dynamic) → TypeContract.matchesRow columns row = true
  | [], _, _ => rfl
  | _ :: _, [], _ => rfl
  | (name, contract) :: columns, cell :: row, h => by
    obtain ⟨rfl, hrest⟩ := forall_mem_cons.mp h
    exact (matchesRow_dynamic hrest : TypeContract.matchesRow columns row = true)

/-- **A scan is of its type exactly if it names no variable twice.** -/
theorem scanType_matches_iff (h : queryRelation rows outputs arity = .ok v) :
    (scanType outputs).valueMatchesType v = true ↔ (outputs.map QueryBinding.name).Nodup := by
  unfold queryRelation at h
  split at h
  · cases h
  obtain ⟨r, hr, rfl⟩ := exists_of_relation (mapError_eq_ok.mp h)
  obtain ⟨hheading, -, -⟩ := RelationValue.of_new_eq_ok hr
  set columns := (outputs.map fun output => (output.name, TypeContract.dynamic)).insertionSort
    fun e f => e.1 ≤ f.1 with hcolumns
  have hperm : (columns.map Prod.fst).Perm (outputs.map QueryBinding.name) := by
    refine ((perm_insertionSort _ _).map Prod.fst).trans (List.Perm.of_eq ?_)
    rw [map_map]
    rfl
  constructor
  · intro hmatch
    rw [scanType, TypeContract.valueMatchesType, Value.asRelation_ofRelation, Option.any_some,
      head?_cons, Option.any_some] at hmatch
    simp only [Bool.and_eq_true, decide_eq_true_eq] at hmatch
    exact hperm.nodup_iff.mp (hmatch.2.1 ▸ r.nodup_heading)
  intro hnodup
  have hsorted : (columns.map Prod.fst).Pairwise (· ≤ ·) := by
    rw [pairwise_map]
    have htotal : Std.Total fun e f : Symbol × TypeContract => e.1 ≤ f.1 :=
      ⟨fun e f => le_total e.1 f.1⟩
    have htrans : IsTrans (Symbol × TypeContract) fun e f => e.1 ≤ f.1 := ⟨fun _ _ _ => le_trans⟩
    exact pairwise_insertionSort _ _
  have hstrict : (columns.map Prod.fst).Pairwise (· < ·) :=
    (hsorted.and (hperm.nodup_iff.mpr hnodup)).imp fun h => lt_of_le_of_ne h.1 h.2
  refine matches_relation ⟨columns, rfl, ?_⟩ (Nat.zero_le _) (nofun) fun row _ => ?_
  · refine SortedList.eq_of_mem_iff r.heading_sorted hstrict fun c => ?_
    rw [hheading, RelationValue.mem_columnOrder, mem_queryColumns, hperm.mem_iff]
    simp
  · refine ⟨columns, mem_singleton_self _, matchesRow_dynamic fun e he => ?_⟩
    obtain ⟨output, -, rfl⟩ := mem_map.mp ((perm_insertionSort _ _).mem_iff.mp he)
    rfl

end Scan

/-- A scan names no variable twice. -/
def Operation.NamesOnce : Operation → Prop
  | .scanBindings _ _ outputs => (outputs.map QueryBinding.name).Nodup
  | _ => True

/-- **The result of an operation is of the type that is inferred**, unless it scans a variable
twice. -/
theorem operate_type (hknown : ∀ r, ∀ t ∈ facts r, t.valueMatchesType (f.registers r) = true)
    {registerCount : ProgramRef → ℕ} {dst : Register} {operation : Operation} {t : TypeContract}
    (hformed : (Opcode.compute dst operation).wellFormed registerCount = true)
    (honce : operation.NamesOnce) (h : operate M host f operation = .ok v)
    (ht : inferOpcodeType facts (.compute dst operation) = some t) : t.valueMatchesType v = true := by
  cases operation with
  | load value =>
    obtain rfl := ok.inj h
    obtain rfl := some.inj ht
    exact valueContract_matches value
  | move src =>
    obtain rfl := ok.inj h
    exact hknown src t ht
  | buildRelation heading cells rowCount =>
    obtain ⟨hcells, hnodup⟩ := Bool.and_eq_true_iff.mp hformed
    exact literalType_matches hknown (of_decide_eq_true hcells) (of_decide_eq_true hnodup) ht h
  | scanBindings relation bindings outputs =>
    obtain ⟨rows, -, h⟩ := bind_eq_ok.mp h
    obtain rfl := some.inj ht
    exact (scanType_matches_iff h).mpr honce
  | _ => exact nomatch ht

end Types

end Vm

end Mica
