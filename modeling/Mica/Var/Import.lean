import Mica.Var.Rename

/-!
# Var/Import — a value carried to another symbol table

What a value written under one symbol table is under another: every name is interned in the order
it is met, and maps and relations are put into canonical order *again*, because that order compares
the new symbols.

* `importValue_eq` — where the new symbols leave the order canonical, the import is the renaming.
* `importValue_self` — carrying a value to its own table changes nothing.
-/

open OrderCode SortedList List Bool

namespace Mica

section Import

variable (E : SymbolTable) (options : ValueCodecOptions)

/-- Carry a symbol: by id it is itself, by name it is interned again. -/
def importSymbol (s : Symbol) (T : SymbolTable) : Symbol × SymbolTable :=
  match options.symbolEncoding with
  | .id => (s, T)
  | .name => T.intern ((E.name s).getD "")

def importSymbols : List Symbol → SymbolTable → List Symbol × SymbolTable
  | [], T => ([], T)
  | s :: ss, T =>
    let (s, T) := importSymbol E options s T
    let (ss, T) := importSymbols ss T
    (s :: ss, T)

mutual

/-- **Carry a value to the table `T`**, with the table afterwards.  A relation can fail where two
columns come to be the same symbol. -/
def importValue : RawValue → SymbolTable → Except RelationValueError (Value × SymbolTable)
  | .bool b, T => .ok (.bool b, T)
  | .int i, T => .ok (.int i, T)
  | .float f, T => .ok (.float f, T)
  | .identity i, T => .ok (.identity i, T)
  | .symbol s, T =>
    let (s, T) := importSymbol E options s T
    .ok (.symbol s, T)
  | .errorCode s, T =>
    let (s, T) := importSymbol E options s T
    .ok (.errorCode s, T)
  | .string s, T => .ok (.string s, T)
  | .bytes b, T => .ok (.bytes b, T)
  | .list vs, T => do
    let (vs, T) ← importValues vs T
    .ok (.list vs, T)
  | .map es, T => do
    let (es, T) ← importEntries es T
    .ok (.map es, T)
  | .range a x, T => do
    let (a, T) ← importValue a T
    let (x, T) ← importOption x T
    .ok (.range a x, T)
  | .error code message value, T => do
    let (code, T) := importSymbol E options code T
    let (value, T) ← importOption value T
    .ok (.error code message value, T)
  | .capability c, T => .ok (.capability c, T)
  | .frob d v, T => do
    let (v, T) ← importValue v T
    .ok (.frob d v, T)
  | .function f, T => .ok (.function f, T)
  | .relation heading rows, T => do
    let (heading, T) := importSymbols E options heading T
    let (rows, T) ← importRows rows T
    let v ← Value.relation heading rows
    .ok (v, T)
termination_by structural v => v

def importValues : List RawValue → SymbolTable → Except RelationValueError (List Value × SymbolTable)
  | [], T => .ok ([], T)
  | v :: vs, T => do
    let (v, T) ← importValue v T
    let (vs, T) ← importValues vs T
    .ok (v :: vs, T)
termination_by structural vs => vs

def importEntries : List (RawValue × RawValue) → SymbolTable →
    Except RelationValueError (List (Value × Value) × SymbolTable)
  | [], T => .ok ([], T)
  | (k, v) :: es, T => do
    let (k, T) ← importValue k T
    let (v, T) ← importValue v T
    let (es, T) ← importEntries es T
    .ok ((k, v) :: es, T)
termination_by structural es => es

def importRows : List (List RawValue) → SymbolTable →
    Except RelationValueError (List Tuple × SymbolTable)
  | [], T => .ok ([], T)
  | row :: rows, T => do
    let (row, T) ← importValues row T
    let (rows, T) ← importRows rows T
    .ok (row :: rows, T)
termination_by structural rows => rows

def importOption : Option RawValue → SymbolTable →
    Except RelationValueError (Option Value × SymbolTable)
  | none, T => .ok (none, T)
  | some v, T => do
    let (v, T) ← importValue v T
    .ok (some v, T)
termination_by structural x => x

end

end Import

/-! ## Where the order stays canonical -/

section Rename

variable {E : SymbolTable} {options : ValueCodecOptions} {f : Symbol → Symbol}

theorem importSymbols_append : ∀ (a b : List Symbol) (T : SymbolTable),
    importSymbols E options (a ++ b) T =
      ((importSymbols E options a T).1 ++ (importSymbols E options b
        (importSymbols E options a T).2).1,
        (importSymbols E options b (importSymbols E options a T).2).2)
  | [], _, _ => rfl
  | s :: a, b, T => by
    simp [importSymbols, importSymbols_append a b]

theorem length_importSymbols : ∀ (ss : List Symbol) (T : SymbolTable),
    (importSymbols E options ss T).1.length = ss.length
  | [], _ => rfl
  | _ :: ss, _ => congrArg (· + 1) (length_importSymbols ss _)

/-- Carrying these symbols to `T` renames them by `f` and ends with `T'`. -/
def Renames (E : SymbolTable) (options : ValueCodecOptions) (f : Symbol → Symbol) (ss : List Symbol)
    (T T' : SymbolTable) : Prop :=
  importSymbols E options ss T = (ss.map f, T')

theorem Renames.append {a b : List Symbol} {T T' : SymbolTable}
    (h : Renames E options f (a ++ b) T T') :
    ∃ U, Renames E options f a T U ∧ Renames E options f b U T' := by
  unfold Renames at h
  rw [importSymbols_append, map_append, Prod.mk.injEq] at h
  obtain ⟨hsymbols, htable⟩ := h
  obtain ⟨ha, hb⟩ := append_inj hsymbols (by rw [length_importSymbols, length_map])
  exact ⟨(importSymbols E options a T).2, Prod.ext ha rfl, Prod.ext hb htable⟩

theorem Renames.singleton {s : Symbol} {T T' : SymbolTable} (h : Renames E options f [s] T T') :
    importSymbol E options s T = (f s, T') := by
  obtain ⟨hs, hT⟩ := Prod.mk.inj h
  exact Prod.ext (List.cons.inj hs).1 hT

/-- A list of entries that is canonical already makes a map of exactly these entries. -/
theorem Value.raw_map {es : List (Value × Value)}
    (h : (RawValue.map (es.map Value.rawEntry)).isCanonical = true) :
    (Value.map es).raw = .map (es.map Value.rawEntry) := by
  rw [RawValue.isCanonical, and_eq_true, decide_eq_true_eq, pairwise_map] at h
  rw [Value.map_eq_ofEntries h.2]
  rfl

/-- A heading and rows that are canonical already make exactly that relation. -/
theorem Value.relation_of_isCanonical {heading : List Symbol} {rows : List Tuple}
    (h : (RawValue.relation heading (rows.map fun row => row.map Value.raw)).isCanonical = true) :
    ∃ w, Value.relation heading rows = .ok w ∧
      w.raw = .relation heading (rows.map fun row => row.map Value.raw) := by
  simp only [RawValue.isCanonical, and_eq_true, decide_eq_true_eq, forall_mem_map,
    length_map, pairwise_map] at h
  obtain ⟨⟨⟨⟨hwide, hheading⟩, harity⟩, hsorted⟩, -⟩ := h
  exact ⟨_, Value.relation_eq_self ⟨heading, rows, hwide, hheading.imp Symbol.lt_iff.mpr, harity,
    hsorted.imp Tuple.lt_iff.mpr⟩, rfl⟩

/-- The statement of `importValue_eq` for one value. -/
def ImportsAsRename (E : SymbolTable) (options : ValueCodecOptions) (f : Symbol → Symbol)
    (v : RawValue) : Prop :=
  ∀ T T', (v.rename f).isCanonical = true → Renames E options f v.symbols T T' →
    ∃ w, importValue E options v T = .ok (w, T') ∧ w.raw = v.rename f

theorem importValues_eq : ∀ {vs : List RawValue} {T T' : SymbolTable},
    (∀ v ∈ vs, ImportsAsRename E options f v) → valuesCanonical (renameValues f vs) = true →
      Renames E options f (symbolsOfValues vs) T T' →
        ∃ ws, importValues E options vs T = .ok (ws, T') ∧ ws.map Value.raw = renameValues f vs
  | [], T, T', _, _, h => ⟨[], by cases h; rfl, rfl⟩
  | v :: vs, T, T', ih, hc, h => by
    obtain ⟨ihv, ih⟩ := forall_mem_cons.mp ih
    obtain ⟨hv, hvs⟩ := and_eq_true_iff.mp hc
    obtain ⟨U, hU, h⟩ := h.append
    obtain ⟨w, hw, hraw⟩ := ihv T U hv hU
    obtain ⟨ws, hws, hraws⟩ := importValues_eq ih hvs h
    refine ⟨w :: ws, ?_, ?_⟩
    · simp only [importValues, hw, hws, bind, Except.bind]
    · rw [map_cons, hraw, hraws, renameValues]

theorem importEntries_eq : ∀ {es : List (RawValue × RawValue)} {T T' : SymbolTable},
    (∀ e ∈ es, ImportsAsRename E options f e.1 ∧ ImportsAsRename E options f e.2) →
      entriesCanonical (renameEntries f es) = true →
        Renames E options f (symbolsOfEntries es) T T' →
          ∃ ws, importEntries E options es T = .ok (ws, T') ∧
            ws.map Value.rawEntry = renameEntries f es
  | [], T, T', _, _, h => ⟨[], by cases h; rfl, rfl⟩
  | (k, v) :: es, T, T', ih, hc, h => by
    obtain ⟨⟨ihk, ihv⟩, ih⟩ := forall_mem_cons.mp ih
    obtain ⟨hkv, hes⟩ := and_eq_true_iff.mp hc
    obtain ⟨hk, hv⟩ := and_eq_true_iff.mp hkv
    obtain ⟨U, hU, h⟩ := h.append
    obtain ⟨V, hV, h⟩ := h.append
    obtain ⟨k', hk', hkraw⟩ := ihk T U hk hU
    obtain ⟨v', hv', hvraw⟩ := ihv U V hv hV
    obtain ⟨ws, hws, hraws⟩ := importEntries_eq ih hes h
    refine ⟨(k', v') :: ws, ?_, ?_⟩
    · simp only [importEntries, hk', hv', hws, bind, Except.bind]
    · rw [map_cons, hraws, renameEntries, Value.rawEntry, hkraw, hvraw]

theorem importRows_eq : ∀ {rows : List (List RawValue)} {T T' : SymbolTable},
    (∀ row ∈ rows, ∀ v ∈ row, ImportsAsRename E options f v) →
      rowsCanonical (renameRows f rows) = true → Renames E options f (symbolsOfRows rows) T T' →
        ∃ ts, importRows E options rows T = .ok (ts, T') ∧
          (ts.map fun row => row.map Value.raw) = renameRows f rows
  | [], T, T', _, _, h => ⟨[], by cases h; rfl, rfl⟩
  | row :: rows, T, T', ih, hc, h => by
    obtain ⟨ihrow, ih⟩ := forall_mem_cons.mp ih
    obtain ⟨hrow, hrows⟩ := and_eq_true_iff.mp hc
    obtain ⟨U, hU, h⟩ := h.append
    obtain ⟨t, ht, htraw⟩ := importValues_eq ihrow hrow hU
    obtain ⟨ts, hts, htsraw⟩ := importRows_eq ih hrows h
    refine ⟨t :: ts, ?_, ?_⟩
    · simp only [importRows, ht, hts, bind, Except.bind]
    · rw [map_cons, htraw, htsraw, renameRows]

theorem importOption_eq {x : Option RawValue} {T T' : SymbolTable}
    (ih : ∀ v ∈ x, ImportsAsRename E options f v) (hc : optionCanonical (renameOption f x) = true)
    (h : Renames E options f (symbolsOfOption x) T T') :
    ∃ y, importOption E options x T = .ok (y, T') ∧ y.map Value.raw = renameOption f x := by
  cases x with
  | none =>
    cases h
    exact ⟨none, rfl, rfl⟩
  | some v =>
    obtain ⟨w, hw, hraw⟩ := ih v rfl T T' hc h
    refine ⟨some w, ?_, congrArg some hraw⟩
    simp only [importOption, hw, bind, Except.bind]

/-- **Where the renamed value is canonical, the import is the renaming.** -/
theorem importValue_eq (v : RawValue) : ImportsAsRename E options f v := by
  induction v with intro T T' hc h
  | bool | int | float | identity | string | bytes | capability | function =>
    cases h
    exact ⟨_, rfl, rfl⟩
  | symbol s => exact ⟨.symbol (f s), by rw [importValue, h.singleton], rfl⟩
  | errorCode s => exact ⟨.errorCode (f s), by rw [importValue, h.singleton], rfl⟩
  | list vs ih =>
    obtain ⟨ws, hws, hraw⟩ := importValues_eq ih hc h
    refine ⟨.list ws, ?_, congrArg RawValue.list hraw⟩
    simp only [importValue, hws, bind, Except.bind]
  | map es ih =>
    have hentries := (and_eq_true_iff.mp hc).1
    obtain ⟨ws, hws, hraw⟩ := importEntries_eq ih hentries h
    refine ⟨.map ws, ?_, ?_⟩
    · simp only [importValue, hws, bind, Except.bind]
    · rw [RawValue.rename, ← hraw] at hc ⊢
      exact Value.raw_map hc
  | range a x iha ihx =>
    obtain ⟨ha, hx⟩ := and_eq_true_iff.mp hc
    obtain ⟨U, hU, h⟩ := Renames.append h
    obtain ⟨a', ha', haraw⟩ := iha T U ha hU
    obtain ⟨x', hx', hxraw⟩ := importOption_eq ihx hx h
    refine ⟨.range a' x', ?_, ?_⟩
    · simp only [importValue, ha', hx', bind, Except.bind]
    · rw [RawValue.rename, ← haraw, ← hxraw]
      rfl
  | error code m x ih =>
    obtain ⟨U, hU, h⟩ := Renames.append (a := [code]) h
    obtain ⟨x', hx', hxraw⟩ := importOption_eq ih hc h
    refine ⟨.error (f code) m x', ?_, ?_⟩
    · simp only [importValue, hU.singleton, hx', bind, Except.bind]
    · rw [RawValue.rename, ← hxraw]
      rfl
  | frob d v ih =>
    obtain ⟨w, hw, hraw⟩ := ih T T' hc h
    refine ⟨.frob d w, ?_, congrArg (RawValue.frob d) hraw⟩
    simp only [importValue, hw, bind, Except.bind]
  | relation heading rows ih =>
    have hrows := (and_eq_true_iff.mp hc).2
    obtain ⟨U, hU, h⟩ := Renames.append h
    obtain ⟨ts, hts, hraw⟩ := importRows_eq ih hrows h
    rw [RawValue.rename, ← hraw] at hc ⊢
    obtain ⟨w, hw, hwraw⟩ := Value.relation_of_isCanonical hc
    refine ⟨w, ?_, hwraw⟩
    unfold Renames at hU
    simp only [importValue, hU, hts, hw, bind, Except.bind]

/-- A symbol that can be written is its own import. -/
theorem renames_id : ∀ {ss : List Symbol}, (∀ s ∈ ss, importSymbol E options s E = (s, E)) →
    Renames E options id ss E E
  | [], _ => rfl
  | s :: ss, h => by
    obtain ⟨hs, h⟩ := forall_mem_cons.mp h
    have hss : importSymbols E options ss E = (ss.map id, E) := renames_id h
    simp [Renames, importSymbols, hs, hss, id_eq]

/-- **Carrying a value to its own table changes nothing.** -/
theorem importValue_self {v : Value} {out : Bytes} (h : wire E options v.raw = .ok out) :
    importValue E options v.raw E = .ok (v, E) := by
  have hself : ∀ s ∈ v.raw.symbols, importSymbol E options s E = (s, E) := by
    intro s hs
    unfold importSymbol
    cases henc : options.symbolEncoding with
    | id => rfl
    | name =>
      obtain ⟨name, hname⟩ := Option.isSome_iff_exists.mp (isSome_name_of_wire henc _ _ h s hs)
      simp [hname, SymbolTable.intern_name hname]
  have hc : (v.raw.rename id).isCanonical = true := by
    rw [RawValue.rename_id]
    exact v.canonical
  obtain ⟨w, hw, hraw⟩ := importValue_eq v.raw E E hc (renames_id hself)
  rw [RawValue.rename_id] at hraw
  rw [hw, Value.ext hraw]

end Rename

/-! ## The same names in a larger table -/

section Carry

variable {E T U : SymbolTable} {options : ValueCodecOptions}

/-- The symbol of `U` for the name that `s` has in `E`. -/
def carrySymbol (E U : SymbolTable) (s : Symbol) : Symbol := (U.intern ((E.name s).getD "")).1

theorem extends_importSymbols (hname : options.symbolEncoding = .name) :
    ∀ (ss : List Symbol) (T : SymbolTable), T.Extends (importSymbols E options ss T).2
  | [], T => .refl T
  | s :: ss, T => by
    have hfirst : T.Extends (importSymbol E options s T).2 := by
      simp only [importSymbol, hname]
      exact SymbolTable.extends_intern T _
    exact hfirst.trans (extends_importSymbols hname ss _)

/-- **Carrying symbols renames them to the symbols of any table that extends the last one.** -/
theorem renames_carrySymbol (hname : options.symbolEncoding = .name)
    (hU : U.byId.length ≤ 2 ^ 32) : ∀ {ss : List Symbol} {T : SymbolTable},
    (importSymbols E options ss T).2.Extends U →
      Renames E options (carrySymbol E U) ss T (importSymbols E options ss T).2
  | [], _, _ => rfl
  | s :: ss, T, h => by
    have hfirst : (importSymbol E options s T).1 = carrySymbol E U s := by
      have hext : (importSymbol E options s T).2.Extends U :=
        (extends_importSymbols hname ss _).trans h
      simp only [importSymbol, hname] at hext ⊢
      rw [carrySymbol, SymbolTable.intern_eq_of_extends hext hU]
    have hrest : Renames E options (carrySymbol E U) ss (importSymbol E options s T).2 _ :=
      renames_carrySymbol hname hU h
    exact Prod.ext (congrArg₂ List.cons hfirst (congrArg Prod.fst hrest)) rfl

theorem mem_importSymbols (hname : options.symbolEncoding = .name) :
    ∀ {ss : List Symbol} {T : SymbolTable} {s : Symbol}, s ∈ ss →
      (E.name s).getD "" ∈ (importSymbols E options ss T).2.byId
  | s :: ss, T, t, ht => by
    change _ ∈ (importSymbols E options ss (importSymbol E options s T).2).2.byId
    rcases mem_cons.mp ht with rfl | ht
    · refine (extends_importSymbols hname ss _).subset ?_
      simp only [importSymbol, hname]
      exact SymbolTable.mem_intern _ _
    · exact mem_importSymbols hname ht

/-- Nothing but the names of the symbols is interned. -/
theorem mem_of_mem_importSymbols (hname : options.symbolEncoding = .name) :
    ∀ {ss : List Symbol} {T : SymbolTable} {n : String}, (∀ s ∈ ss, (E.name s).isSome) →
      n ∈ (importSymbols E options ss T).2.byId → n ∈ T.byId ∨ n ∈ E.byId
  | [], _, _, _, h => .inl h
  | s :: ss, T, n, hss, h => by
    obtain ⟨hs, hss⟩ := forall_mem_cons.mp hss
    obtain ⟨m, hm⟩ := Option.isSome_iff_exists.mp hs
    change n ∈ (importSymbols E options ss (importSymbol E options s T).2).2.byId at h
    rcases mem_of_mem_importSymbols hname hss h with h | h
    · simp only [importSymbol, hname, hm, Option.getD_some] at h
      rcases SymbolTable.mem_of_mem_intern h with rfl | h
      · exact .inr (mem_of_getElem? hm)
      · exact .inl h
    · exact .inr h

/-- Carrying a symbol keeps its name. -/
theorem keepsNames_carrySymbol (hU : U.byId.length ≤ 2 ^ 32) {ss : List Symbol}
    (hss : ∀ s ∈ ss, (E.name s).isSome) (hmem : ∀ s ∈ ss, (E.name s).getD "" ∈ U.byId) :
    KeepsNames E U (carrySymbol E U) ss := by
  intro s hs
  obtain ⟨n, hn⟩ := Option.isSome_iff_exists.mp (hss s hs)
  have hin := hmem s hs
  rw [hn] at hin
  refine ⟨hss s hs, ?_⟩
  rw [carrySymbol, hn]
  exact SymbolTable.name_intern_of_mem hU hin

/-- A renaming that keeps names keeps named symbols apart. -/
theorem KeepsNames.injOn {f : Symbol → Symbol} {ss : List Symbol} (h : KeepsNames E U f ss) :
    Set.InjOn f {s | s ∈ ss} := by
  intro s hs t ht heq
  obtain ⟨n, hn⟩ := Option.isSome_iff_exists.mp (h s hs).1
  have hsame : E.name t = E.name s := by rw [← (h t ht).2, ← heq, (h s hs).2]
  exact SymbolTable.name_injective hn (hsame.trans hn)

end Carry

end Mica
