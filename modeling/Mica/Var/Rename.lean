import Mica.Var.WireFormat

/-!
# Var/Rename — other symbols for the same names

Two processes that hold the same value hold it with different symbols.  `RawValue.rename` replaces
every symbol and keeps everything else where it is, in particular the order of map entries, relation
columns and rows; whether that order is still canonical depends on the new symbols.

* `wire_rename` — a renaming that keeps every name keeps the encoding by name.
* `OrderFree` — the values that stay canonical under every renaming: no order inside them is decided
  by a symbol.
-/

open OrderCode List

namespace Mica

/-! ## Symbols and renamings -/

section Rename

variable (f : Symbol → Symbol)

mutual

/-- Replace every symbol of a value. -/
def RawValue.rename : RawValue → RawValue
  | .bool b => .bool b
  | .int i => .int i
  | .float x => .float x
  | .identity i => .identity i
  | .symbol s => .symbol (f s)
  | .errorCode s => .errorCode (f s)
  | .string s => .string s
  | .bytes b => .bytes b
  | .list vs => .list (renameValues vs)
  | .map es => .map (renameEntries es)
  | .range a x => .range a.rename (renameOption x)
  | .error code message x => .error (f code) message (renameOption x)
  | .capability c => .capability c
  | .frob d v => .frob d v.rename
  | .function g => .function g
  | .relation heading rows => .relation (heading.map f) (renameRows rows)
termination_by structural v => v

def renameValues : List RawValue → List RawValue
  | [] => []
  | v :: vs => v.rename :: renameValues vs
termination_by structural vs => vs

def renameEntries : List (RawValue × RawValue) → List (RawValue × RawValue)
  | [] => []
  | (k, v) :: es => (k.rename, v.rename) :: renameEntries es
termination_by structural es => es

def renameRows : List (List RawValue) → List (List RawValue)
  | [] => []
  | row :: rows => renameValues row :: renameRows rows
termination_by structural rows => rows

def renameOption : Option RawValue → Option RawValue
  | none => none
  | some v => some v.rename
termination_by structural x => x

end

/-- Values are renamed one by one. -/
theorem renameValues_eq : ∀ vs : List RawValue, renameValues f vs = vs.map (·.rename f)
  | [] => rfl
  | v :: vs => congrArg (v.rename f :: ·) (renameValues_eq vs)

/-- So are the keys and values of entries. -/
theorem renameEntries_eq : ∀ es : List (RawValue × RawValue),
    renameEntries f es = es.map (Prod.map (·.rename f) (·.rename f))
  | [] => rfl
  | (k, v) :: es => congrArg ((k.rename f, v.rename f) :: ·) (renameEntries_eq es)

/-- So are the values of rows. -/
theorem renameRows_eq : ∀ rows : List (List RawValue),
    renameRows f rows = rows.map fun row => row.map (·.rename f)
  | [] => rfl
  | row :: rows => by
    rw [renameRows, renameValues_eq, renameRows_eq, map_cons]

theorem renameOption_eq : ∀ x : Option RawValue, renameOption f x = x.map (·.rename f)
  | none => rfl
  | some _ => rfl

end Rename

mutual

/-- The symbols of a value, in the order the encoder writes them. -/
def RawValue.symbols : RawValue → List Symbol
  | .symbol s => [s]
  | .errorCode s => [s]
  | .list vs => symbolsOfValues vs
  | .map es => symbolsOfEntries es
  | .range a x => a.symbols ++ symbolsOfOption x
  | .error code _ x => code :: symbolsOfOption x
  | .frob _ v => v.symbols
  | .relation heading rows => heading ++ symbolsOfRows rows
  | _ => []
termination_by structural v => v

def symbolsOfValues : List RawValue → List Symbol
  | [] => []
  | v :: vs => v.symbols ++ symbolsOfValues vs
termination_by structural vs => vs

def symbolsOfEntries : List (RawValue × RawValue) → List Symbol
  | [] => []
  | (k, v) :: es => k.symbols ++ (v.symbols ++ symbolsOfEntries es)
termination_by structural es => es

def symbolsOfRows : List (List RawValue) → List Symbol
  | [] => []
  | row :: rows => symbolsOfValues row ++ symbolsOfRows rows
termination_by structural rows => rows

def symbolsOfOption : Option RawValue → List Symbol
  | none => []
  | some v => v.symbols
termination_by structural x => x

end

/-- The symbols of values are those of each. -/
theorem symbolsOfValues_eq : ∀ vs : List RawValue, symbolsOfValues vs = vs.flatMap RawValue.symbols
  | [] => rfl
  | v :: vs => by rw [symbolsOfValues, symbolsOfValues_eq, flatMap_cons]

/-- The symbols of entries are those of their keys and values. -/
theorem symbolsOfEntries_eq : ∀ es : List (RawValue × RawValue),
    symbolsOfEntries es = es.flatMap fun e => e.1.symbols ++ e.2.symbols
  | [] => rfl
  | (k, v) :: es => by
    rw [symbolsOfEntries, symbolsOfEntries_eq, flatMap_cons, append_assoc]

/-- The symbols of rows are those of their values. -/
theorem symbolsOfRows_eq : ∀ rows : List (List RawValue),
    symbolsOfRows rows = rows.flatMap fun row => row.flatMap RawValue.symbols
  | [] => rfl
  | row :: rows => by
    rw [symbolsOfRows, symbolsOfValues_eq, symbolsOfRows_eq, flatMap_cons]

/-- Renaming nothing changes nothing. -/
theorem RawValue.rename_id (v : RawValue) : v.rename id = v := by
  induction v with
  | bool | int | float | identity | string | bytes | capability | function | symbol | errorCode => rfl
  | list vs ih =>
    simp only [rename, renameValues_eq, RawValue.list.injEq]
    exact (map_congr_left ih).trans (map_id vs)
  | map es ih =>
    simp only [rename, renameEntries_eq, RawValue.map.injEq]
    exact (map_congr_left fun e he => Prod.ext (ih e he).1 (ih e he).2).trans (map_id es)
  | range a x iha ihx =>
    simp only [rename, renameOption_eq, RawValue.range.injEq]
    exact ⟨iha, (Option.map_congr ihx).trans (Option.map_id_apply)⟩
  | error code m x ih =>
    simp only [rename, renameOption_eq, RawValue.error.injEq, true_and]
    exact ⟨rfl, (Option.map_congr ih).trans (Option.map_id_apply)⟩
  | frob d v ih => exact congrArg (RawValue.frob d) ih
  | relation heading rows ih =>
    simp only [rename, renameRows_eq, map_id, RawValue.relation.injEq, true_and]
    exact (map_congr_left fun row hrow => (map_congr_left (ih row hrow)).trans
      (map_id row)).trans (map_id rows)

/-- Two renamings make one. -/
theorem RawValue.rename_rename (f g : Symbol → Symbol) (v : RawValue) :
    (v.rename f).rename g = v.rename (g ∘ f) := by
  induction v with
  | bool | int | float | identity | string | bytes | capability | function | symbol | errorCode => rfl
  | list vs ih =>
    simp only [rename, renameValues_eq, map_map, RawValue.list.injEq]
    exact map_congr_left ih
  | map es ih =>
    simp only [rename, renameEntries_eq, map_map, RawValue.map.injEq]
    exact map_congr_left fun e he => Prod.ext (ih e he).1 (ih e he).2
  | range a x iha ihx =>
    simp only [rename, renameOption_eq, Option.map_map, RawValue.range.injEq]
    exact ⟨iha, Option.map_congr ihx⟩
  | error code m x ih =>
    simp only [rename, renameOption_eq, Option.map_map, RawValue.error.injEq, true_and]
    exact ⟨rfl, Option.map_congr ih⟩
  | frob d v ih => exact congrArg (RawValue.frob d) ih
  | relation heading rows ih =>
    simp only [rename, renameRows_eq, map_map, RawValue.relation.injEq, true_and]
    refine map_congr_left fun row hrow => ?_
    rw [Function.comp_apply, map_map]
    exact map_congr_left (ih row hrow)

/-- The symbols of a renamed value are the renamed symbols. -/
theorem RawValue.symbols_rename (f : Symbol → Symbol) (v : RawValue) :
    (v.rename f).symbols = v.symbols.map f := by
  induction v with
  | bool | int | float | identity | string | bytes | capability | function | symbol | errorCode => rfl
  | list vs ih =>
    simp only [rename, renameValues_eq, symbols, symbolsOfValues_eq, flatMap_map,
      map_flatMap]
    exact flatMap_congr ih
  | map es ih =>
    simp only [rename, renameEntries_eq, symbols, symbolsOfEntries_eq, flatMap_map,
      map_flatMap, map_append]
    exact flatMap_congr fun e he => congrArg₂ _ (ih e he).1 (ih e he).2
  | range a x iha ihx =>
    cases x with
    | none => simp only [rename, renameOption, symbols, symbolsOfOption, iha, map_append,
        map_nil]
    | some x => simp only [rename, renameOption, symbols, symbolsOfOption, iha, ihx x rfl,
        map_append]
  | error code m x ih =>
    cases x with
    | none => rfl
    | some x => simp only [rename, renameOption, symbols, symbolsOfOption, ih x rfl, map_cons]
  | frob d v ih => exact ih
  | relation heading rows ih =>
    simp only [rename, renameRows_eq, symbols, symbolsOfRows_eq, flatMap_map,
      map_flatMap, map_append]
    exact congrArg _ (flatMap_congr fun row hrow => flatMap_congr (ih row hrow))

/-! ## The encoding by name -/

section Wire

variable {T U : SymbolTable} {options : ValueCodecOptions} {f : Symbol → Symbol}

/-- A renaming that keeps the name of a symbol keeps its encoding by name. -/
theorem wireSymbol_rename (hname : options.symbolEncoding = .name) (kind : ValueKind) {s : Symbol}
    (h : U.name (f s) = T.name s) (hsome : (T.name s).isSome) :
    wireSymbol U options kind (f s) = wireSymbol T options kind s := by
  obtain ⟨name, hs⟩ := Option.isSome_iff_exists.mp hsome
  simp only [wireSymbol, hname, h, hs]

/-- The renaming takes each of these symbols to one of the same name. -/
def KeepsNames (T U : SymbolTable) (f : Symbol → Symbol) (ss : List Symbol) : Prop :=
  ∀ s ∈ ss, (T.name s).isSome ∧ U.name (f s) = T.name s

/-- Names are kept in both parts of a list, or in neither. -/
theorem KeepsNames.append {a b : List Symbol} :
    KeepsNames T U f (a ++ b) ↔ KeepsNames T U f a ∧ KeepsNames T U f b :=
  forall_mem_append

/-- Column names are encoded by name. -/
theorem wireColumns_rename (hname : options.symbolEncoding = .name) : ∀ {heading : List Symbol},
    KeepsNames T U f heading →
      wireColumns U options (heading.map f) = wireColumns T options heading
  | [], _ => rfl
  | s :: heading, h => by
    obtain ⟨hs, h⟩ := forall_mem_cons.mp h
    rw [map_cons, wireColumns, wireColumns, wireColumns_rename hname h,
      wireSymbol_rename hname _ hs.2 hs.1]

/-- Values, if the encoding of each is kept. -/
theorem wireValues_rename : ∀ {vs : List RawValue}, (∀ v ∈ vs, KeepsNames T U f v.symbols →
    wire U options (v.rename f) = wire T options v) → KeepsNames T U f (symbolsOfValues vs) →
      wireValues U options (renameValues f vs) = wireValues T options vs
  | [], _, _ => rfl
  | v :: vs, ih, h => by
    obtain ⟨hv, hvs⟩ := KeepsNames.append.mp h
    obtain ⟨ihv, ih⟩ := forall_mem_cons.mp ih
    rw [renameValues, wireValues, wireValues, ihv hv, wireValues_rename ih hvs]

theorem wireEntries_rename : ∀ {es : List (RawValue × RawValue)},
    (∀ e ∈ es, (KeepsNames T U f e.1.symbols → wire U options (e.1.rename f) = wire T options e.1) ∧
      (KeepsNames T U f e.2.symbols → wire U options (e.2.rename f) = wire T options e.2)) →
      KeepsNames T U f (symbolsOfEntries es) →
        wireEntries U options (renameEntries f es) = wireEntries T options es
  | [], _, _ => rfl
  | (k, v) :: es, ih, h => by
    obtain ⟨hk, h⟩ := KeepsNames.append.mp h
    obtain ⟨hv, hes⟩ := KeepsNames.append.mp h
    obtain ⟨⟨ihk, ihv⟩, ih⟩ := forall_mem_cons.mp ih
    rw [renameEntries, wireEntries, wireEntries, ihk hk, ihv hv, wireEntries_rename ih hes]

/-- Rows, if the encoding of each value is kept. -/
theorem wireRows_rename : ∀ {rows : List (List RawValue)},
    (∀ row ∈ rows, ∀ v ∈ row, KeepsNames T U f v.symbols →
      wire U options (v.rename f) = wire T options v) → KeepsNames T U f (symbolsOfRows rows) →
        wireRows U options (renameRows f rows) = wireRows T options rows
  | [], _, _ => rfl
  | row :: rows, ih, h => by
    obtain ⟨hrow, hrows⟩ := KeepsNames.append.mp h
    obtain ⟨ihrow, ih⟩ := forall_mem_cons.mp ih
    rw [renameRows, wireRows, wireRows, wireValues_rename ihrow hrow, wireRows_rename ih hrows]

/-- A payload, if the encoding of its value is kept. -/
theorem wireOption_rename {x : Option RawValue} (ih : ∀ v ∈ x, KeepsNames T U f v.symbols →
    wire U options (v.rename f) = wire T options v) (h : KeepsNames T U f (symbolsOfOption x)) :
    wireOption U options (renameOption f x) = wireOption T options x := by
  cases x with
  | none => rfl
  | some v => exact ih v rfl h

/-- **A renaming that keeps every name keeps the encoding.** -/
theorem wire_rename (hname : options.symbolEncoding = .name) (v : RawValue)
    (h : KeepsNames T U f v.symbols) : wire U options (v.rename f) = wire T options v := by
  induction v with
  | bool | int | float | identity | string | bytes | capability | function => rfl
  | symbol s | errorCode s =>
    obtain ⟨hsome, hs⟩ := h s mem_cons_self
    exact wireSymbol_rename hname _ hs hsome
  | list vs ih =>
    have hlen : (renameValues f vs).length = vs.length := by rw [renameValues_eq, length_map]
    rw [RawValue.rename, wire, wire, hlen, wireValues_rename ih h]
  | map es ih =>
    have hlen : (renameEntries f es).length = es.length := by rw [renameEntries_eq, length_map]
    rw [RawValue.rename, wire, wire, hlen, wireEntries_rename ih h]
  | range a x iha ihx =>
    obtain ⟨ha, hx⟩ := KeepsNames.append.mp h
    have hflags : rangeFlags (renameOption f x) = rangeFlags x := by cases x <;> rfl
    rw [RawValue.rename, wire, wire, hflags, iha ha, wireOption_rename ihx hx]
  | error code m x ih =>
    obtain ⟨⟨hsome, hs⟩, hx⟩ := forall_mem_cons.mp h
    have hflags : errorFlags m (renameOption f x) = errorFlags m x := by cases x <;> rfl
    rw [RawValue.rename, wire, wire, hflags, wireSymbol_rename hname _ hs hsome,
      wireOption_rename ih hx]
  | frob d v ih => rw [RawValue.rename, wire, wire, ih h]
  | relation heading rows ih =>
    obtain ⟨hheading, hrows⟩ := KeepsNames.append.mp h
    have hlen : (renameRows f rows).length = rows.length := by rw [renameRows_eq, length_map]
    have hrows := wireRows_rename ih hrows
    have hcolumns := wireColumns_rename hname hheading
    rcases heading with _ | ⟨s, heading⟩
    · rcases rows with _ | ⟨row, rows⟩
      · rfl
      rw [RawValue.rename, map_nil, renameRows, wire, wire]
      · rw [← renameRows, hlen, hrows]
        rfl
      · simp
      · simp
    · rw [RawValue.rename, map_cons, wire, wire, hlen, hrows, ← map_cons, hcolumns,
        length_map]
      · simp
      · simp

theorem isSome_name_of_wireSymbol (hname : options.symbolEncoding = .name) {kind : ValueKind}
    {s : Symbol} {out : Bytes} (h : wireSymbol T options kind s = .ok out) : (T.name s).isSome := by
  rcases wireSymbol_eq_ok h with ⟨henc, -⟩ | ⟨-, name, hs, -⟩
  · rw [hname] at henc
    cases henc
  · rw [hs]
    rfl

theorem isSome_name_of_wireColumns (hname : options.symbolEncoding = .name) :
    ∀ {heading : List Symbol} {out : Bytes}, wireColumns T options heading = .ok out →
      ∀ s ∈ heading, (T.name s).isSome
  | [], _, _ => nofun
  | _ :: _, _, h => by
    obtain ⟨a, b, ha, hb, -⟩ := cat_eq_ok h
    exact forall_mem_cons.mpr
      ⟨isSome_name_of_wireSymbol hname ha, isSome_name_of_wireColumns hname hb⟩

/-- The statement of `isSome_name_of_wire` for one value. -/
def NamedIfWired (T : SymbolTable) (options : ValueCodecOptions) (v : RawValue) : Prop :=
  ∀ out, wire T options v = .ok out → ∀ s ∈ v.symbols, (T.name s).isSome

theorem namedIfWired_values : ∀ {vs : List RawValue} {out : Bytes},
    (∀ v ∈ vs, NamedIfWired T options v) → wireValues T options vs = .ok out →
      ∀ s ∈ symbolsOfValues vs, (T.name s).isSome
  | [], _, _, _ => nofun
  | _ :: _, _, ih, h => by
    obtain ⟨ihv, ih⟩ := forall_mem_cons.mp ih
    obtain ⟨a, b, ha, hb, -⟩ := cat_eq_ok h
    exact forall_mem_append.mpr ⟨ihv a ha, namedIfWired_values ih hb⟩

theorem namedIfWired_entries : ∀ {es : List (RawValue × RawValue)} {out : Bytes},
    (∀ e ∈ es, NamedIfWired T options e.1 ∧ NamedIfWired T options e.2) →
      wireEntries T options es = .ok out → ∀ s ∈ symbolsOfEntries es, (T.name s).isSome
  | [], _, _, _ => nofun
  | _ :: _, _, ih, h => by
    obtain ⟨⟨ihk, ihv⟩, ih⟩ := forall_mem_cons.mp ih
    obtain ⟨a, b, ha, hb, -⟩ := cat_eq_ok h
    obtain ⟨c, d, hc, hd, -⟩ := cat_eq_ok hb
    exact forall_mem_append.mpr
      ⟨ihk a ha, forall_mem_append.mpr ⟨ihv c hc, namedIfWired_entries ih hd⟩⟩

theorem namedIfWired_rows : ∀ {rows : List (List RawValue)} {out : Bytes},
    (∀ row ∈ rows, ∀ v ∈ row, NamedIfWired T options v) → wireRows T options rows = .ok out →
      ∀ s ∈ symbolsOfRows rows, (T.name s).isSome
  | [], _, _, _ => nofun
  | _ :: _, _, ih, h => by
    obtain ⟨ihrow, ih⟩ := forall_mem_cons.mp ih
    obtain ⟨a, b, ha, hb, -⟩ := cat_eq_ok h
    exact forall_mem_append.mpr ⟨namedIfWired_values ihrow ha, namedIfWired_rows ih hb⟩

theorem namedIfWired_option {x : Option RawValue} {out : Bytes}
    (ih : ∀ v ∈ x, NamedIfWired T options v) (h : wireOption T options x = .ok out) :
    ∀ s ∈ symbolsOfOption x, (T.name s).isSome := by
  cases x with
  | none => exact nofun
  | some v => exact ih v rfl out h

/-- **What encodes by name has only named symbols.** -/
theorem isSome_name_of_wire (hname : options.symbolEncoding = .name) (v : RawValue) :
    NamedIfWired T options v := by
  induction v with intro out h
  | bool | int | float | identity | string | bytes | capability | function =>
    exact nofun
  | symbol s | errorCode s =>
    exact forall_mem_singleton.mpr (isSome_name_of_wireSymbol hname h)
  | list vs ih =>
    obtain ⟨aux, -, h⟩ := bind_eq_ok h
    obtain ⟨body, hbody, -⟩ := wireHeader_cat_eq_ok h
    exact namedIfWired_values ih hbody
  | map es ih =>
    obtain ⟨aux, -, h⟩ := bind_eq_ok h
    obtain ⟨body, hbody, -⟩ := wireHeader_cat_eq_ok h
    exact namedIfWired_entries ih hbody
  | range a x iha ihx =>
    obtain ⟨body, hbody, -⟩ := wireHeader_cat_eq_ok h
    obtain ⟨b, c, hb, hc, -⟩ := cat_eq_ok hbody
    exact forall_mem_append.mpr ⟨iha b hb, namedIfWired_option ihx hc⟩
  | error code m x ih =>
    obtain ⟨body, hbody, -⟩ := wireHeader_cat_eq_ok h
    obtain ⟨a, b, ha, hb, -⟩ := cat_eq_ok hbody
    obtain ⟨c, d, -, hd, -⟩ := cat_eq_ok hb
    exact forall_mem_cons.mpr
      ⟨isSome_name_of_wireSymbol hname ha, namedIfWired_option ih hd⟩
  | frob d v ih =>
    obtain ⟨body, hbody, -⟩ := wireHeader_cat_eq_ok h
    obtain ⟨a, b, -, hb, -⟩ := cat_eq_ok hbody
    exact ih b hb
  | relation heading rows ih =>
    -- the record of a relation that is not the empty one of no columns
    have hrecord : (lenAux heading.length >>= fun aux => cat (wireHeader .relation aux)
        (cat (wireColumns T options heading) (lenWord rows.length >>= fun len =>
          cat (.ok (LittleEndian.toLE 8 len)) (wireRows T options rows)))) = .ok out →
        ∀ s ∈ heading ++ symbolsOfRows rows, (T.name s).isSome := by
      intro h
      obtain ⟨aux, -, h⟩ := bind_eq_ok h
      obtain ⟨body, hbody, -⟩ := wireHeader_cat_eq_ok h
      obtain ⟨columns, rest, hcolumns, hrest, -⟩ := cat_eq_ok hbody
      obtain ⟨len, -, hrest⟩ := bind_eq_ok hrest
      obtain ⟨a, cells, -, hcells, -⟩ := cat_eq_ok hrest
      exact forall_mem_append.mpr
        ⟨isSome_name_of_wireColumns hname hcolumns, namedIfWired_rows ih hcells⟩
    match heading, rows with
    | [], [] => exact nofun
    | [], _ :: _ => exact hrecord h
    | _ :: _, _ => exact hrecord h

end Wire

/-! ## Values no symbol orders -/

/-- **No order inside the value is decided by a symbol**: it stays canonical under every renaming
that keeps its symbols apart. -/
def OrderFree (v : RawValue) : Prop :=
  ∀ f : Symbol → Symbol, Set.InjOn f {s | s ∈ v.symbols} → (v.rename f).isCanonical = true

/-- Renaming keeps a value free of symbol orders. -/
theorem OrderFree.rename {v : RawValue} (h : OrderFree v) {f : Symbol → Symbol}
    (hf : Set.InjOn f {s | s ∈ v.symbols}) : OrderFree (v.rename f) := by
  intro g hg
  rw [RawValue.rename_rename]
  refine h (g ∘ f) (hg.comp hf fun s hs => ?_)
  change f s ∈ (v.rename f).symbols
  rw [RawValue.symbols_rename]
  exact mem_map_of_mem hs

end Mica
