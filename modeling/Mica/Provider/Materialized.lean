import Mica.Provider.FactCodec
import Mathlib.Data.Finset.Image

/-!
# Provider/Materialized — stored facts across processes

The writer keeps the durable facts in an ordered store, under keys that spell symbols by name; the
loader of the next process reads them back into a symbol table of its own.  A process that retracts a
fact writes *its* key for it, which is the stored key only if the new symbols leave every map and
relation in the order they were written in.

* `retract_after_restart_reloaded` — where they do not, a retracted fact stays stored.
* `load_eq_live` — where no committed value is ordered by its symbols, every later process loads
  exactly the live facts.
-/

open OrderCode List

namespace Mica

section Store

variable {M : Type → Type} [ByteMap M]

/-- The facts written by `write_commit`, one batch for a commit. -/
def writeFacts (T : SymbolTable) : List FactChange → M Bytes → Except RecordError (M Bytes)
  | [], facts => .ok facts
  | c :: changes, facts => do
    let key ← factKey T c.relation c.tuple
    match c.kind with
    | .assert =>
      let record ← encodeTupleRecord T c.tuple
      writeFacts T changes (ByteMap.insert key record facts)
    | .retract => writeFacts T changes (ByteMap.delete key facts)

/-- One turn of `load_facts`. -/
def loadFact (key value : Bytes) (T : SymbolTable) : Except RecordError (Fact × SymbolTable) :=
  if key.length < 8 then .error (.factKeyLength key.length)
  else
    match identityOfRaw (ofBE (key.take 8)) with
    | none => .error .relationIdentity
    | some relation => do
      let (tuple, T) ← decodeTuple value T
      .ok ((relation, tuple), T)

def loadFactEntries : List (Bytes × Bytes) → SymbolTable →
    Except RecordError (List Fact × SymbolTable)
  | [], T => .ok ([], T)
  | (key, value) :: entries, T => do
    let (fact, T) ← loadFact key value T
    let (facts, T) ← loadFactEntries entries T
    .ok (fact :: facts, T)

/-- `load_facts`, with the names it interns. -/
def loadFacts (facts : M Bytes) (T : SymbolTable) : Except RecordError (List Fact × SymbolTable) :=
  loadFactEntries (ByteMap.entries facts) T

end Store

/-! ## Facts under other symbols -/

section Carry

variable {E T U : SymbolTable}

/-- A value with other symbols, where that leaves it canonical. -/
def Value.rename (f : Symbol → Symbol) (v : Value) : Value :=
  if h : (v.raw.rename f).isCanonical = true then ⟨v.raw.rename f, h⟩ else v

variable {f : Symbol → Symbol}

theorem Value.raw_rename {v : Value}
    (h : (v.raw.rename f).isCanonical = true) : (v.rename f).raw = v.raw.rename f := by
  rw [Value.rename, dif_pos h]

/-- The fact of `E` in the table `U`: each symbol becomes the symbol of the same name. -/
def carryFact (E U : SymbolTable) (fact : Fact) : Fact :=
  (fact.1, fact.2.map (Value.rename (carrySymbol E U)))

/-- The symbols of a tuple. -/
def symbolsOfTuple (tuple : Tuple) : List Symbol := symbolsOfValues (tuple.map Value.raw)

variable {tuple : Tuple}

theorem mem_symbolsOfTuple {s : Symbol} :
    s ∈ symbolsOfTuple tuple ↔ ∃ v ∈ tuple, s ∈ v.raw.symbols := by
  rw [symbolsOfTuple, symbolsOfValues_eq, flatMap_map, mem_flatMap]

/-- A tuple no order in which is decided by a symbol. -/
def OrderFreeTuple (tuple : Tuple) : Prop := ∀ v ∈ tuple, OrderFree v.raw

theorem OrderFreeTuple.raw_rename (h : OrderFreeTuple tuple)
    (hf : Set.InjOn f {s | s ∈ symbolsOfTuple tuple}) :
    ∀ v ∈ tuple, (v.rename f).raw = v.raw.rename f := by
  intro v hv
  refine Value.raw_rename (h v hv f (hf.mono fun s hs => ?_))
  exact mem_symbolsOfTuple.mpr ⟨v, hv, hs⟩

theorem OrderFreeTuple.map_rename (h : OrderFreeTuple tuple)
    (hf : Set.InjOn f {s | s ∈ symbolsOfTuple tuple}) :
    (tuple.map (Value.rename f)).map Value.raw = renameValues f (tuple.map Value.raw) := by
  rw [renameValues_eq, map_map, map_map]
  exact map_congr_left (h.raw_rename hf)

theorem OrderFreeTuple.rename (h : OrderFreeTuple tuple)
    (hf : Set.InjOn f {s | s ∈ symbolsOfTuple tuple}) :
    OrderFreeTuple (tuple.map (Value.rename f)) := by
  intro w hw
  obtain ⟨v, hv, rfl⟩ := mem_map.mp hw
  rw [h.raw_rename hf v hv]
  exact (h v hv).rename (hf.mono fun s hs => mem_symbolsOfTuple.mpr ⟨v, hv, hs⟩)

/-- The symbols of a tuple that was written have names. -/
theorem isSome_name_of_encode {out r : Bytes}
    (h : encodeTuple E tuple out = .ok r) : ∀ s ∈ symbolsOfTuple tuple, (E.name s).isSome := by
  obtain ⟨-, -, cells, hcells, -⟩ := encodeTuple_eq_ok.mp h
  exact namedIfWired_values (fun v _ => isSome_name_of_wire rfl v) hcells

/-- **Renaming by name keeps keys and records.** -/
theorem encodeTuple_rename (hfree : OrderFreeTuple tuple)
    (hf : KeepsNames E U f (symbolsOfTuple tuple)) {out r : Bytes} :
    encodeTuple U (tuple.map (Value.rename f)) out = .ok r ↔ encodeTuple E tuple out = .ok r := by
  have hwire : wireValues U .default ((tuple.map (Value.rename f)).map Value.raw)
      = wireValues E .default (tuple.map Value.raw) := by
    rw [hfree.map_rename hf.injOn]
    exact wireValues_rename (fun v _ h => wire_rename rfl v h) hf
  rw [encodeTuple_eq_ok, encodeTuple_eq_ok, hwire, length_map]

/-- A table that grows keeps keys and records. -/
theorem encodeTuple_extends {out r : Bytes} (h : encodeTuple E tuple out = .ok r)
    (hext : E.Extends U) : encodeTuple U tuple out = .ok r := by
  obtain ⟨hlen, hsize, cells, hcells, rfl⟩ := encodeTuple_eq_ok.mp h
  have hnames : KeepsNames E U id (symbolsOfTuple tuple) := by
    intro s hs
    have hsome := isSome_name_of_encode h s hs
    obtain ⟨n, hn⟩ := Option.isSome_iff_exists.mp hsome
    exact ⟨hsome, (hext.name_eq hn).trans hn.symm⟩
  have hid : renameValues id (tuple.map Value.raw) = tuple.map Value.raw := by
    rw [renameValues_eq]
    exact (map_congr_left fun v _ => v.rename_id).trans (map_id _)
  have hwire : wireValues U .default (renameValues id (tuple.map Value.raw)) = _ :=
    wireValues_rename (fun v _ h => wire_rename rfl v h) hnames
  rw [hid] at hwire
  exact encodeTuple_eq_ok.mpr ⟨hlen, hsize, cells, hwire.trans hcells, rfl⟩

/-- What loading a tuple makes of the table. -/
def tableAfter (E : SymbolTable) (tuple : Tuple) (T : SymbolTable) : SymbolTable :=
  (importSymbols E .default (symbolsOfTuple tuple) T).2

theorem keepsNames_of_tableAfter {out r : Bytes}
    (h : encodeTuple E tuple out = .ok r) (hext : (tableAfter E tuple T).Extends U)
    (hU : U.byId.length ≤ 2 ^ 32) : KeepsNames E U (carrySymbol E U) (symbolsOfTuple tuple) :=
  keepsNames_carrySymbol hU (isSome_name_of_encode h) fun _ hs =>
    hext.subset (mem_importSymbols rfl hs)

/-- **A record of another process decodes to the tuple with this process's symbols.** -/
theorem decodeTuple_carry {r : Bytes} (h : encodeTupleRecord E tuple = .ok r)
    (hfree : OrderFreeTuple tuple) (hext : (tableAfter E tuple T).Extends U)
    (hU : U.byId.length ≤ 2 ^ 32) :
    decodeTuple r T = .ok (tuple.map (Value.rename (carrySymbol E U)), tableAfter E tuple T) := by
  have hinj := (keepsNames_of_tableAfter h hext hU).injOn
  have hcanonical : valuesCanonical
      (renameValues (carrySymbol E U) (tuple.map Value.raw)) = true := by
    rw [← hfree.map_rename hinj, valuesCanonical_iff]
    intro v hv
    obtain ⟨w, -, rfl⟩ := mem_map.mp hv
    exact w.canonical
  obtain ⟨ws, hws, hraw⟩ := importValues_eq (fun v _ => importValue_eq v) hcanonical
    (renames_carrySymbol rfl hU hext)
  have hwsEq : ws = tuple.map (Value.rename (carrySymbol E U)) := by
    refine map_injective_iff.mpr (fun _ _ => Value.ext) ?_
    rw [hraw, hfree.map_rename hinj]
  rw [decodeTuple_eq h hws, hwsEq]
  rfl

end Carry

/-! ## Loading -/

section Load

variable {E : SymbolTable}

/-- The entry stored for a fact. -/
def Stored (E : SymbolTable) (fact : Fact) (entry : Bytes × Bytes) : Prop :=
  factKey E fact.1 fact.2 = .ok entry.1 ∧ encodeTupleRecord E fact.2 = .ok entry.2

/-- What loading the facts makes of the table. -/
def tableAfterFacts (E : SymbolTable) : List Fact → SymbolTable → SymbolTable
  | [], T => T
  | fact :: facts, T => tableAfterFacts E facts (tableAfter E fact.2 T)

theorem extends_tableAfterFacts : ∀ (facts : List Fact) (T : SymbolTable),
    T.Extends (tableAfterFacts E facts T)
  | [], T => .refl T
  | _ :: facts, T =>
    (extends_importSymbols rfl _ T).trans (extends_tableAfterFacts facts _)

theorem loadFact_eq {fact : Fact} {entry : Bytes × Bytes} (h : Stored E fact entry)
    (hfree : OrderFreeTuple fact.2) {T U : SymbolTable}
    (hext : (tableAfter E fact.2 T).Extends U) (hU : U.byId.length ≤ 2 ^ 32) :
    loadFact entry.1 entry.2 T = .ok (carryFact E U fact, tableAfter E fact.2 T) := by
  obtain ⟨r, -, hkey⟩ := factKey_eq_ok h.1
  have hlen : ¬entry.1.length < 8 := by
    rw [hkey, length_append, length_toBE]
    omega
  have htake : entry.1.take 8 = toBE 8 fact.1.raw.toNat := by
    rw [hkey, take_append_of_le_length (by rw [length_toBE]),
      take_of_length_le (by rw [length_toBE])]
  simp only [loadFact, if_neg hlen, htake, ofBE_relation,
    decodeTuple_carry h.2 hfree hext hU, bind, Except.bind, carryFact]

/-- **Loading entries that another process stored** gives its facts with the symbols of any table that
extends the last one. -/
theorem loadFactEntries_eq {U : SymbolTable} (hU : U.byId.length ≤ 2 ^ 32) :
    ∀ {facts : List Fact} {es : List (Bytes × Bytes)} {T : SymbolTable},
      List.Forall₂ (Stored E) facts es → (∀ fact ∈ facts, OrderFreeTuple fact.2) →
        (tableAfterFacts E facts T).Extends U →
          loadFactEntries es T = .ok (facts.map (carryFact E U), tableAfterFacts E facts T)
  | [], _, _, .nil, _, _ => rfl
  | fact :: facts, entry :: es, T, .cons hfact h, hfree, hext => by
    obtain ⟨hfirst, hfree⟩ := forall_mem_cons.mp hfree
    have hload := loadFact_eq hfact hfirst ((extends_tableAfterFacts facts _).trans hext) hU
    have hrest := loadFactEntries_eq hU h hfree hext
    simp only [loadFactEntries, hload, hrest, bind, Except.bind, map_cons, tableAfterFacts]

theorem mem_tableAfterFacts : ∀ {facts : List Fact} {T : SymbolTable} {fact : Fact} {s : Symbol},
    fact ∈ facts → s ∈ symbolsOfTuple fact.2 →
      (E.name s).getD "" ∈ (tableAfterFacts E facts T).byId
  | g :: facts, T, fact, s, hfact, hs => by
    change _ ∈ (tableAfterFacts E facts (tableAfter E g.2 T)).byId
    rcases mem_cons.mp hfact with rfl | hfact
    · exact (extends_tableAfterFacts facts _).subset (mem_importSymbols rfl hs)
    · exact mem_tableAfterFacts hfact hs

theorem mem_of_mem_tableAfterFacts : ∀ {facts : List Fact} {T : SymbolTable} {n : String},
    (∀ fact ∈ facts, ∀ s ∈ symbolsOfTuple fact.2, (E.name s).isSome) →
      n ∈ (tableAfterFacts E facts T).byId → n ∈ T.byId ∨ n ∈ E.byId
  | [], _, _, _, h => .inl h
  | fact :: facts, T, n, hnamed, h => by
    obtain ⟨hfirst, hnamed⟩ := forall_mem_cons.mp hnamed
    rcases mem_of_mem_tableAfterFacts hnamed h with h | h
    · exact mem_of_mem_importSymbols rfl hfirst h
    · exact .inr h

theorem length_tableAfterFacts_le {facts : List Fact}
    (hnamed : ∀ fact ∈ facts, ∀ s ∈ symbolsOfTuple fact.2, (E.name s).isSome) (T : SymbolTable) :
    (tableAfterFacts E facts T).byId.length ≤ T.byId.length + E.byId.length := by
  rw [← length_append]
  refine (subperm_of_subset (tableAfterFacts E facts T).nodup fun n hn => ?_).length_le
  exact mem_append.mpr (mem_of_mem_tableAfterFacts hnamed hn)

end Load

/-! ## Processes over one store -/

/-- A process and its store: the symbols it has interned, its durable facts, what is on disk. -/
structure System (M : Type → Type) where
  table : SymbolTable
  live : Finset Fact
  store : M Bytes

inductive SystemStep where
  | intern (name : String)
  | commit (changes : List FactChange)
  | restart (table : SymbolTable)

namespace System

variable {M : Type → Type} [ByteMap M]

def applyChange (live : Finset Fact) (c : FactChange) : Finset Fact :=
  match c.kind with
  | .assert => insert (c.relation, c.tuple) live
  | .retract => live.erase (c.relation, c.tuple)

/-- A process that starts over an empty store, whatever it has interned. -/
def start (table : SymbolTable) : System M := ⟨table, ∅, ByteMap.empty⟩

/-- One step: intern a name; commit changes that the writer then applies; or end the process and load
the store into a new one, which may have interned any names before. -/
def step (s : System M) : SystemStep → Except RecordError (System M)
  | .intern name => .ok { s with table := (s.table.intern name).2 }
  | .commit changes => do
    let store ← writeFacts s.table changes s.store
    .ok { s with live := changes.foldl applyChange s.live, store }
  | .restart table => do
    let (facts, table) ← loadFacts s.store table
    .ok ⟨table, facts.toFinset, s.store⟩

def run (s : System M) : List SystemStep → Except RecordError (System M)
  | [] => .ok s
  | a :: steps => do
    let s ← s.step a
    s.run steps

/-! ### A fact that comes back -/

/-- A process that met `a` before `b`. -/
def abTable : SymbolTable := ⟨["a", "b"], by decide⟩

/-- A process that met `b` before `a`. -/
def baTable : SymbolTable := ⟨["b", "a"], by decide⟩

def someRelation : RelationId := .ofByte 7

def smallInt (n : ℤ) (hmin : intMin ≤ n) (hmax : n ≤ intMax) : Value := .int ⟨n, hmin, hmax⟩

/-- A map of two symbol keys, with these values for the symbols `0` and `1`. -/
def symbolMap (m n : Value) : Value := .map [(.symbol ⟨0⟩, m), (.symbol ⟨1⟩, n)]

/-- **The stored fact outlives its retraction**: a map from `a` to `1` and `b` to `2` is asserted, the
process that loads it orders the two symbols the other way, its retraction deletes a key that was
never written, and with no live fact left the next load returns one. -/
theorem retract_after_restart_reloaded :
    ∃ (steps : List SystemStep) (s : System Entries), (start abTable).run steps = .ok s ∧
      s.live = ∅ ∧ ∃ facts T, loadFacts s.store baTable = .ok (facts, T) ∧ facts ≠ [] := by
  let one := smallInt 1 (by decide) (by decide)
  let two := smallInt 2 (by decide) (by decide)
  let steps := [SystemStep.commit [⟨someRelation, [symbolMap one two], .assert⟩], .restart baTable,
    .commit [⟨someRelation, [symbolMap two one], .retract⟩]]
  have heval : ((start abTable : System Entries).run steps).toOption.map (fun s =>
      (decide (s.live = ∅), (loadFacts s.store baTable).toOption.map fun x => x.1.length))
      = some (true, some 1) := by decide +kernel
  refine ⟨steps, ?_⟩
  rcases hrun : (start abTable : System Entries).run steps with _ | s
  · rw [hrun] at heval; cases heval
  rw [hrun] at heval
  obtain ⟨hlive, hload⟩ := Prod.mk.inj (Option.some.inj heval)
  refine ⟨s, rfl, of_decide_eq_true hlive, ?_⟩
  rcases hfacts : loadFacts s.store baTable with _ | x
  · rw [hfacts] at hload; cases hload
  rw [hfacts] at hload
  have hlen : x.1.length = 1 := Option.some.inj hload
  exact ⟨x.1, x.2, rfl, ne_nil_of_length_pos (by omega)⟩

/-! ### The store tracks the live facts -/

/-- **The store holds exactly the live facts**, each under the key this process would write for it,
and none of them is ordered by its symbols. -/
structure Tracks (s : System M) : Prop where
  orderFree : ∀ fact ∈ s.live, OrderFreeTuple fact.2
  stored : ∀ fact ∈ s.live, ∃ entry, Stored s.table fact entry
  mem_entries : ∀ entry, entry ∈ ByteMap.entries s.store ↔ ∃ fact ∈ s.live, Stored s.table fact entry

theorem tracks_start (table : SymbolTable) : (start table : System M).Tracks where
  orderFree _ h := absurd h (Finset.notMem_empty _)
  stored _ h := absurd h (Finset.notMem_empty _)
  mem_entries entry := by
    rw [start, ByteMap.entries_empty]
    exact ⟨nofun, fun ⟨_, h, _⟩ => absurd h (Finset.notMem_empty _)⟩

variable {T : SymbolTable} {fact : Fact} {entry : Bytes × Bytes}

theorem stored_injective {fact' : Fact} {entry' : Bytes × Bytes}
    (h : Stored T fact entry) (h' : Stored T fact' entry') (hkey : entry.1 = entry'.1) :
    fact = fact' := by
  obtain ⟨hrelation, htuple⟩ := factKey_injective h.1 (hkey ▸ h'.1)
  exact Prod.ext hrelation htuple

theorem stored_unique {entry' : Bytes × Bytes}
    (h : Stored T fact entry) (h' : Stored T fact entry') : entry = entry' :=
  Prod.ext (Except.ok.inj (h.1.symm.trans h'.1)) (Except.ok.inj (h.2.symm.trans h'.2))

variable {s s' : System M}

theorem Tracks.assert (h : s.Tracks)
    (hstored : Stored s.table fact entry) (hfree : OrderFreeTuple fact.2) :
    ({ s with live := insert fact s.live, store := ByteMap.insert entry.1 entry.2 s.store } :
      System M).Tracks where
  orderFree g hg := by
    rcases Finset.mem_insert.mp hg with rfl | hg
    · exact hfree
    · exact h.orderFree g hg
  stored g hg := by
    rcases Finset.mem_insert.mp hg with rfl | hg
    · exact ⟨entry, hstored⟩
    · exact h.stored g hg
  mem_entries e := by
    rw [ByteMap.mem_insert, h.mem_entries]
    constructor
    · rintro (rfl | ⟨-, g, hg, hge⟩)
      · exact ⟨fact, Finset.mem_insert_self _ _, hstored⟩
      · exact ⟨g, Finset.mem_insert_of_mem hg, hge⟩
    rintro ⟨g, hg, hge⟩
    by_cases hkey : e.1 = entry.1
    · have heq := stored_injective hge hstored hkey
      subst heq
      exact .inl (stored_unique hge hstored)
    · rcases Finset.mem_insert.mp hg with rfl | hg
      · exact absurd (congrArg Prod.fst (stored_unique hge hstored)) hkey
      · exact .inr ⟨hkey, g, hg, hge⟩

theorem Tracks.retract (h : s.Tracks) {key : Bytes}
    (hkey : factKey s.table fact.1 fact.2 = .ok key) :
    ({ s with live := s.live.erase fact, store := ByteMap.delete key s.store } :
      System M).Tracks where
  orderFree g hg := h.orderFree g (Finset.mem_of_mem_erase hg)
  stored g hg := h.stored g (Finset.mem_of_mem_erase hg)
  mem_entries e := by
    rw [ByteMap.mem_delete, h.mem_entries]
    constructor
    · rintro ⟨hne, g, hg, hge⟩
      refine ⟨g, Finset.mem_erase.mpr ⟨?_, hg⟩, hge⟩
      rintro rfl
      exact hne (Except.ok.inj (hge.1.symm.trans hkey))
    rintro ⟨g, hg, hge⟩
    obtain ⟨hne, hg⟩ := Finset.mem_erase.mp hg
    refine ⟨fun heq => hne ?_, g, hg, hge⟩
    obtain ⟨hrelation, htuple⟩ := factKey_injective hge.1 (heq ▸ hkey)
    exact Prod.ext hrelation htuple

/-- **A commit keeps the store in step**, change by change. -/
theorem Tracks.commit : ∀ {changes : List FactChange} {s : System M} {store : M Bytes}, s.Tracks →
    (∀ c ∈ changes, OrderFreeTuple c.tuple) → writeFacts s.table changes s.store = .ok store →
      ({ s with live := changes.foldl applyChange s.live, store } : System M).Tracks
  | [], s, store, h, _, hwrite => by
    cases hwrite
    exact h
  | c :: changes, s, store, h, hfree, hwrite => by
    obtain ⟨hc, hfree⟩ := forall_mem_cons.mp hfree
    obtain ⟨key, hkey, hwrite⟩ := bind_eq_ok hwrite
    rw [foldl_cons]
    cases hkind : c.kind with
    | assert =>
      simp only [hkind] at hwrite
      obtain ⟨record, hrecord, hwrite⟩ := bind_eq_ok hwrite
      have hstored : Stored s.table (c.relation, c.tuple) (key, record) := ⟨hkey, hrecord⟩
      have hone := h.assert hstored hc
      rw [applyChange, hkind]
      exact hone.commit hfree hwrite
    | retract =>
      simp only [hkind] at hwrite
      have hkey : factKey s.table (c.relation, c.tuple).1 (c.relation, c.tuple).2 = .ok key := hkey
      have hone := h.retract hkey
      rw [applyChange, hkind]
      exact hone.commit hfree hwrite

theorem stored_extends {U : SymbolTable}
    (h : Stored T fact entry) (hext : T.Extends U) : Stored U fact entry :=
  ⟨encodeTuple_extends h.1 hext, encodeTuple_extends h.2 hext⟩

theorem Tracks.intern (h : s.Tracks) (name : String) :
    ({ s with table := (s.table.intern name).2 } : System M).Tracks where
  orderFree := h.orderFree
  stored fact hfact := by
    obtain ⟨entry, hentry⟩ := h.stored fact hfact
    exact ⟨entry, stored_extends hentry (SymbolTable.extends_intern _ _)⟩
  mem_entries e := by
    rw [h.mem_entries]
    constructor
    · rintro ⟨fact, hfact, hentry⟩
      exact ⟨fact, hfact, stored_extends hentry (SymbolTable.extends_intern _ _)⟩
    · rintro ⟨fact, hfact, hentry⟩
      obtain ⟨e', he'⟩ := h.stored fact hfact
      have heq := stored_unique hentry (stored_extends he' (SymbolTable.extends_intern _ _))
      exact ⟨fact, hfact, heq ▸ he'⟩

/-! ### Restarting -/

theorem exists_of_mem_of_forall₂ {α β : Type} {r : α → β → Prop} {a : α} :
    ∀ {as : List α} {bs : List β}, List.Forall₂ r as bs → a ∈ as → ∃ b ∈ bs, r a b
  | _, _, .nil, ha => nomatch ha
  | _, b :: _, .cons hab h, ha => by
    rcases mem_cons.mp ha with rfl | ha
    · exact ⟨b, mem_cons_self, hab⟩
    · obtain ⟨c, hc, hac⟩ := exists_of_mem_of_forall₂ h ha
      exact ⟨c, mem_cons_of_mem _ hc, hac⟩

/-- The live facts, in the order of the store. -/
theorem Tracks.exists_facts (h : s.Tracks) :
    ∃ facts : List Fact, List.Forall₂ (Stored s.table) facts (ByteMap.entries s.store) ∧
      facts.Nodup ∧ ∀ fact, fact ∈ facts ↔ fact ∈ s.live := by
  have hchoose : ∀ es : List (Bytes × Bytes), (∀ e ∈ es, ∃ fact ∈ s.live, Stored s.table fact e) →
      ∃ facts : List Fact, List.Forall₂ (Stored s.table) facts es ∧ ∀ fact ∈ facts, fact ∈ s.live := by
    intro es
    induction es with
    | nil => exact fun _ => ⟨[], .nil, nofun⟩
    | cons e es ih =>
      intro hes
      obtain ⟨⟨fact, hfact, hstored⟩, hes⟩ := forall_mem_cons.mp hes
      obtain ⟨facts, hall, hlive⟩ := ih hes
      exact ⟨fact :: facts, .cons hstored hall, forall_mem_cons.mpr ⟨hfact, hlive⟩⟩
  obtain ⟨facts, hall, hlive⟩ := hchoose _ fun e he => (h.mem_entries e).mp he
  -- distinct keys, distinct facts
  have hnodup : ∀ {es : List (Bytes × Bytes)} {facts : List Fact},
      (es.Pairwise fun e f => compare e.1 f.1 = .lt) → List.Forall₂ (Stored s.table) facts es →
        facts.Nodup := by
    intro es facts hsorted hall
    induction hall with
    | nil => exact nodup_nil
    | @cons fact e facts es hfact hall ih =>
      obtain ⟨he, hsorted⟩ := pairwise_cons.mp hsorted
      refine nodup_cons.mpr ⟨fun hmem => ?_, ih hsorted⟩
      obtain ⟨e', he', hstored⟩ := exists_of_mem_of_forall₂ hall hmem
      exact Entries.ne_of_compare_lt (he e' he') (congrArg Prod.fst (stored_unique hfact hstored))
  refine ⟨facts, hall, hnodup (ByteMap.sorted s.store) hall, fun fact => ⟨hlive fact, fun hfact => ?_⟩⟩
  obtain ⟨entry, hentry⟩ := h.stored fact hfact
  have hmem := (h.mem_entries entry).mpr ⟨fact, hfact, hentry⟩
  obtain ⟨fact', hfact', hentry'⟩ := exists_of_mem_of_forall₂ hall.flip hmem
  rwa [stored_injective hentry hentry' rfl]

/-- What a process that starts with the table `T` loads. -/
theorem Tracks.load (h : s.Tracks) (hT : T.byId.length + s.table.byId.length ≤ 2 ^ 32) :
    ∃ (facts : List Fact) (T' : SymbolTable),
      loadFacts s.store T = .ok (facts.map (carryFact s.table T'), T') ∧ facts.Nodup ∧
      (∀ fact, fact ∈ facts ↔ fact ∈ s.live) ∧ T'.byId.length ≤ 2 ^ 32 ∧
      ∀ fact ∈ s.live, KeepsNames s.table T' (carrySymbol s.table T') (symbolsOfTuple fact.2) := by
  obtain ⟨facts, hall, hnodup, hlive⟩ := h.exists_facts
  have hnamed : ∀ fact ∈ facts, ∀ t ∈ symbolsOfTuple fact.2, (s.table.name t).isSome := by
    intro fact hfact
    obtain ⟨entry, hentry⟩ := h.stored fact ((hlive fact).mp hfact)
    exact isSome_name_of_encode hentry.1
  have hsize := (length_tableAfterFacts_le hnamed T).trans hT
  refine ⟨facts, tableAfterFacts s.table facts T, ?_, hnodup, hlive, hsize, fun fact hfact => ?_⟩
  · exact loadFactEntries_eq hsize hall (fun fact hfact => h.orderFree fact ((hlive fact).mp hfact))
      (.refl _)
  · have hmem := (hlive fact).mpr hfact
    exact keepsNames_carrySymbol hsize (hnamed fact hmem) fun t ht => mem_tableAfterFacts hmem ht

theorem stored_carryFact {U : SymbolTable} (hfree : OrderFreeTuple fact.2)
    (hnames : KeepsNames T U (carrySymbol T U) (symbolsOfTuple fact.2)) :
    Stored U (carryFact T U fact) entry ↔ Stored T fact entry :=
  and_congr (encodeTuple_rename hfree hnames) (encodeTuple_rename hfree hnames)

/-- **A restarted process is in step again.** -/
theorem Tracks.restart (h : s.Tracks)
    (hT : T.byId.length + s.table.byId.length ≤ 2 ^ 32) {facts : List Fact} {T' : SymbolTable}
    (hload : loadFacts s.store T = .ok (facts, T')) :
    (⟨T', facts.toFinset, s.store⟩ : System M).Tracks := by
  obtain ⟨facts', T'', hload', -, hlive, -, hnames⟩ := h.load hT
  rw [hload] at hload'
  obtain ⟨rfl, rfl⟩ := Prod.mk.inj (Except.ok.inj hload')
  have hmem : ∀ g, g ∈ (facts'.map (carryFact s.table T')).toFinset ↔
      ∃ fact ∈ s.live, carryFact s.table T' fact = g := by
    intro g
    rw [mem_toFinset, mem_map]
    exact exists_congr fun fact => and_congr_left fun _ => hlive fact
  constructor
  · intro g hg
    obtain ⟨fact, hfact, rfl⟩ := (hmem g).mp hg
    exact (h.orderFree fact hfact).rename (hnames fact hfact).injOn
  · intro g hg
    obtain ⟨fact, hfact, rfl⟩ := (hmem g).mp hg
    obtain ⟨entry, hentry⟩ := h.stored fact hfact
    exact ⟨entry, (stored_carryFact (h.orderFree fact hfact) (hnames fact hfact)).mpr hentry⟩
  · intro e
    rw [h.mem_entries]
    constructor
    · rintro ⟨fact, hfact, hentry⟩
      exact ⟨_, (hmem _).mpr ⟨fact, hfact, rfl⟩,
        (stored_carryFact (h.orderFree fact hfact) (hnames fact hfact)).mpr hentry⟩
    · rintro ⟨g, hg, hentry⟩
      obtain ⟨fact, hfact, rfl⟩ := (hmem g).mp hg
      exact ⟨fact, hfact,
        (stored_carryFact (h.orderFree fact hfact) (hnames fact hfact)).mp hentry⟩

/-! ### Runs -/

/-- What keeps a step clear of the order of symbols: a commit writes no value that its symbols order,
and a load starts with room for every name of the process before it among the `2 ^ 32` symbols. -/
def Fits (s : System M) : SystemStep → Prop
  | .intern _ => True
  | .commit changes => ∀ c ∈ changes, OrderFreeTuple c.tuple
  | .restart table => table.byId.length + s.table.byId.length ≤ 2 ^ 32

/-- The states reached by runs whose steps all fit. -/
inductive Reachable : System M → Prop
  | start (table : SymbolTable) : Reachable (start table)
  | step {s s' : System M} {a : SystemStep} : Reachable s → s.Fits a → s.step a = .ok s' →
      Reachable s'

theorem Tracks.step (h : s.Tracks) {a : SystemStep} (ha : s.Fits a) (hstep : s.step a = .ok s') :
    s'.Tracks := by
  match a with
  | .intern name =>
    cases hstep
    exact h.intern name
  | .commit changes =>
    obtain ⟨store, hwrite, hstep⟩ := bind_eq_ok hstep
    cases hstep
    exact h.commit ha hwrite
  | .restart table =>
    obtain ⟨⟨facts, T'⟩, hload, hstep⟩ := bind_eq_ok hstep
    cases hstep
    exact h.restart ha hload

theorem Reachable.tracks (h : Reachable s) : s.Tracks := by
  induction h with
  | start table => exact tracks_start table
  | step _ ha hstep ih => exact ih.step ha hstep

/-- **Loading gives exactly the live facts**, in every state of a run whose steps fit: whatever a new
process has interned, the load succeeds and returns each live fact once, with the symbols of the new
process for the same names, and the new process would write it under the key it is stored at. -/
theorem load_eq_live (h : Reachable s) (T : SymbolTable)
    (hT : T.byId.length + s.table.byId.length ≤ 2 ^ 32) :
    ∃ facts T', loadFacts s.store T = .ok (facts, T') ∧ facts.Nodup ∧
      (∀ fact, fact ∈ facts ↔ ∃ g ∈ s.live, carryFact s.table T' g = fact) ∧
      ∀ g ∈ s.live, ∀ key, factKey s.table g.1 g.2 = .ok key ↔
        factKey T' (carryFact s.table T' g).1 (carryFact s.table T' g).2 = .ok key := by
  have htracks := h.tracks
  obtain ⟨facts, T', hload, hnodup, hlive, -, hnames⟩ := htracks.load hT
  have hkey : ∀ g ∈ s.live, ∀ entry, Stored T' (carryFact s.table T' g) entry ↔
      Stored s.table g entry := fun g hg _ =>
    stored_carryFact (htracks.orderFree g hg) (hnames g hg)
  refine ⟨facts.map (carryFact s.table T'), T', hload, ?_, fun fact => ?_, fun g hg key => ?_⟩
  · refine List.Nodup.map_on (fun g hg g' hg' heq => ?_) hnodup
    obtain ⟨entry, hentry⟩ := htracks.stored g ((hlive g).mp hg)
    have hentry' := (hkey g ((hlive g).mp hg) entry).mpr hentry
    rw [heq] at hentry'
    exact stored_injective hentry ((hkey g' ((hlive g').mp hg') entry).mp hentry') rfl
  · rw [mem_map]
    exact exists_congr fun g => and_congr_left fun _ => hlive g
  · exact (encodeTuple_rename (htracks.orderFree g hg) (hnames g hg)).symm

/-- A run ends a step, and then the rest. -/
theorem exists_step {s u : System M} {a : SystemStep} {steps : List SystemStep}
    (h : s.run (a :: steps) = .ok u) : ∃ t, s.step a = .ok t ∧ t.run steps = .ok u := by
  rw [run] at h
  rcases hstep : s.step a with _ | t
  · rw [hstep] at h
    cases h
  · rw [hstep] at h
    exact ⟨t, rfl, h⟩

/-- A map with string keys, holding two symbols. -/
def stringMap (m n : UInt32) : Value := .map [(.string "k", .symbol ⟨m⟩), (.string "l", .symbol ⟨n⟩)]

theorem orderFree_stringMap (m n : UInt32) : OrderFreeTuple [stringMap m n] := by
  intro v hv f _
  obtain rfl := mem_singleton.mp hv
  rfl

/-- Of two maps a process with other names retracts one, and the other is loaded after that. -/
theorem load_eq_live_stringMap :
    ∃ s : System Entries, s.live = {(someRelation, [stringMap 1 1])} ∧
      ∃ facts T', loadFacts s.store abTable = .ok (facts, T') ∧ facts.Nodup ∧
      (∀ fact, fact ∈ facts ↔ ∃ g ∈ s.live, carryFact s.table T' g = fact) ∧
      ∀ g ∈ s.live, ∀ key, factKey s.table g.1 g.2 = .ok key ↔
        factKey T' (carryFact s.table T' g).1 (carryFact s.table T' g).2 = .ok key := by
  let a := SystemStep.commit
    [⟨someRelation, [stringMap 0 1], .assert⟩, ⟨someRelation, [stringMap 0 0], .assert⟩]
  let b := SystemStep.commit [⟨someRelation, [stringMap 1 0], .retract⟩]
  have hfree : ∀ s : System Entries, s.Fits a ∧ s.Fits b := fun _ =>
    ⟨forall_mem_cons.mpr ⟨orderFree_stringMap 0 1, forall_mem_singleton.mpr (orderFree_stringMap 0 0)⟩,
      forall_mem_singleton.mpr (orderFree_stringMap 1 0)⟩
  have hfirst : ((start abTable : System Entries).step a).toOption.map (fun s => s.table.byId.length) =
      some 2 := by decide +kernel
  have heval : ((start abTable : System Entries).run [a, .restart baTable, b]).toOption.map
      (fun s => (decide (s.live = {(someRelation, [stringMap 1 1])}), s.table.byId.length)) =
        some (true, 2) := by decide +kernel
  rcases hrun : (start abTable : System Entries).run [a, .restart baTable, b] with _ | u
  · rw [hrun] at heval
    cases heval
  rw [hrun] at heval
  obtain ⟨hlive, htable⟩ := Prod.mk.inj (Option.some.inj heval)
  obtain ⟨s, ha, hrun⟩ := exists_step hrun
  obtain ⟨t, hrestart, hrun⟩ := exists_step hrun
  obtain ⟨v, hb, hrun⟩ := exists_step hrun
  obtain rfl : v = u := Except.ok.inj hrun
  rw [ha] at hfirst
  have hsize : s.Fits (.restart baTable) := by
    have hlength : s.table.byId.length = 2 := Option.some.inj hfirst
    change baTable.byId.length + s.table.byId.length ≤ _
    rw [hlength]
    decide
  have hreach : Reachable v :=
    .step (.step (.step (.start abTable) (hfree _).1 ha) hsize hrestart) (hfree _).2 hb
  exact ⟨v, of_decide_eq_true hlive, load_eq_live hreach abTable (by rw [htable]; decide)⟩

end System

end Mica
